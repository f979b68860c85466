import Integris.ResumeAmbient
import Integris.ResumeAt

/-! Resuming after any earlier sessions. Whatever peers did to a store before, a later honest
transfer of a file depends only on what they left under the file's names. Data that do not
belong to the file, recorded under its true size and digest, are resumed from and never
cleared: the transfer fails, and so does every later one. -/
namespace Integris.RemoteSync

open Posix LocalSync Prog PathGrammar Ambient

/-- Where the store of a destination has its two directories. -/
inductive Sited (fs : FS) (destination : Bytes) : Option Path → Path → Path → Prop
  | ambient {a stage partials : Path} (text : destination = absText a) (site : Ambient.Site fs a stage partials)
      (two : TwoDirs stage partials) : Sited fs destination none stage partials
  | descriptor {dest : Path} (site : Descriptor.Site fs dest) :
      Sited fs destination (some dest) (stageText dest) (partialText dest)

section opening

variable {host : Host}

theorem ensures_wrapping {m : Os α} {Q : α → Prop} (h : Ensures m Q) (message : String) :
    Ensures (wrapping message m) Q := fun env s => wp_mapError.mpr (h env s)

theorem ensures_openDirectory {fd : Path} {n : Name} (segment : Segment n) :
    Ensures (openDirectory fd n) (· = fd ++ [n]) := fun _ w =>
  (yields_openDirectory (I := fun _ => True) segment w trivial).imp (fun _ _ h => h.2)

/-- The store is opened on the two directories of its destination, with no file in progress. -/
theorem opened_ambient {a : Path} (plain : Plain a) :
    Ensures (openLocalStoreAt (absText a) none) (· = Ambient.opened a) := by
  refine Ensures.after fun _ => Ensures.after fun _ => Ensures.pure ?_
  rw [recvStageDir_eq plain,recvPartialDir_eq plain]
  rfl

theorem opened_descriptor (destination : Bytes) (dest : Path) :
    Ensures (openLocalStoreAt destination (some dest)) (· = Descriptor.opened destination dest) := by
  have segment {n : Name} (valid : ValidName n) : Segment n := valid.segment
  have fds : Ensures (ensureRecvStageAt dest) (· = ⟨dest,stageText dest,partialText dest⟩) := by
    refine Ensures.after fun _ =>
      (ensures_wrapping (ensures_openDirectory (segment (by decide))) "recv-meta open").bind ?_
    rintro _ rfl
    refine Ensures.after fun _ => Ensures.after fun _ =>
      (ensures_wrapping (ensures_openDirectory (segment (by decide))) "recv-stage open").bind ?_
    rintro _ rfl
    refine (ensures_wrapping (ensures_openDirectory (segment (by decide))) "recv-partial open").bind ?_
    rintro _ rfl
    refine Ensures.pure ?_
    simp [stageText,partialText]
  refine fds.bind ?_
  rintro _ rfl
  exact Ensures.pure rfl

theorem Sited.bench {lib : Library} {fs : FS} {destination : Bytes} {destFD : Option Path} {stage partials q : Path}
    {n : Name} {b : FileBegin} (sited : Sited fs destination destFD stage partials) (quiet : host.Quiet)
    (named : validateJoined lib.nfc b.rel = .ok (q ++ [n])) :
    ∃ s₀, s₀.active = false ∧ Ensures (openLocalStoreAt destination destFD) (· = s₀) ∧
      Bench lib host s₀ b (Berth fs stage partials q n) (stage ++ q ++ [n]) (partials ++ q ++ [part n])
        (partials ++ q ++ [record n]) := by
  obtain ⟨-,text,-,plain,-⟩ := validateJoined_ok named
  cases sited with
  | ambient dest site two =>
    subst dest
    exact ⟨_,rfl,opened_ambient site.plain,Ambient.bench site two plain quiet text⟩
  | descriptor site =>
    have accepted : ∀ m ∈ q, Descriptor.Accepted lib.nfc m := fun m hm =>
      Descriptor.accepted_of_validateJoined named (List.mem_append_left _ hm)
    exact ⟨_,rfl,opened_descriptor _ _,Descriptor.bench _ site plain accepted quiet text⟩

end opening

/-- After any earlier serving processes on a store, each on its own host and dropped anywhere: in a
tree with room for a file, an honest transfer of it is acknowledged within the file and ends with
the file staged, exactly if the file is staged already or the data it resumes from, if any, are a
front part of it. -/
theorem resume_delivers_iff (out : Outside) (host : Host) (quiet : host.Quiet) (destination : Bytes)
    (destFD : Option Path) (served : List Served) (w₀ : World) (s : Store) (w : World)
    (opening : openLocalStoreAt destination destFD host (serveAll out.toLibrary destination destFD served w₀) =
      (.ok s,w))
    (stage partials q : Path) (n : Name) (sited : Sited w.fs destination destFD stage partials)
    (t : SourceTree) (e : Entry) (fits : Sendable t e) (named : validateJoined out.nfc e.rel = .ok (q ++ [n]))
    (room : Berth w.fs stage partials q n w.fs)
    (readable : Readable out.json (partials ++ q ++ [record n]) w.fs)
    (sized : ∀ mode data, w.fs.node (partials ++ q ++ [part n]) = some (.file mode data) → data.length < 2 ^ 64)
    (distinct : ∀ mode data, w.fs.node (stage ++ q ++ [n]) = some (.file mode data) →
      sha256 data = sha256 (t.content e.rel) → data = t.content e.rel)
    (next : Client) (replies : List Bytes) :
    Delivered (stage ++ q ++ [n]) (t.content e.rel) replies
        (recvFiles out 1 host ⟨⟨sendFileChunked t e next,[],replies⟩,⟨w,s⟩⟩) ↔
      Staged (stage ++ q ++ [n]) (beginOf e) w.fs ∨
        ∀ data, Resumes out.json (partials ++ q ++ [part n]) (partials ++ q ++ [record n]) (beginOf e) w.fs data →
          data <+: t.content e.rel := by
  obtain ⟨s₀,idle,opens,bench⟩ : ∃ s₀, s₀.active = false ∧ Ensures (openLocalStoreAt destination destFD) (· = s₀) ∧
      Bench out.toLibrary host s₀ (beginOf e) (Berth w.fs stage partials q n) (stage ++ q ++ [n])
        (partials ++ q ++ [part n]) (partials ++ q ++ [record n]) := sited.bench quiet named
  have same : s = s₀ := opens.ok_of opening
  subst same
  exact transfer_delivers_iff (r := ⟨w,s⟩) bench fits quiet ⟨rfl,rfl,rfl⟩ idle room readable sized distinct

/-! A file of two bytes after one dropped session. -/

/-- A codec that reads back what it wrote. -/
def flatCodec : MetaCodec where
  marshal m := leBytes 8 m.offset.toNat ++
    (encodeFileBegin ⟨m.rel,m.mode,m.digest,UInt64.ofInt m.size⟩).toOption.getD []
  unmarshal raw :=
    match decodeFileBegin (raw.drop 8) with
    | .ok b => some ⟨b.rel,b.mode,b.size.toNat,b.digest,leNat (raw.take 8)⟩
    | .error _ => none

def flatOutside : Outside where
  nfc := asciiTables
  json := flatCodec
  explain _ := []
  publish _ := pure ()

def pairEntry : Entry := ⟨ascii "f",.file,2,0o644,some (sha256 [1,2])⟩

def pairTree : SourceTree where
  entries := [pairEntry]
  content _ := [1,2]
  reads _ off := if ([1,2] : Bytes).drop off = [] then [] else [([1,2] : Bytes).drop off]

/-- A session that announces the file and is dropped after these data. -/
def droppedAfter (data : Bytes) : Served where
  host := quietHost
  requests := [msgFileBegin :: leBytes 2 1 ++ ascii "f" ++ leBytes 4 0o644 ++ (sha256 [1,2]).val ++ leBytes 8 2,
    msgFileChunk :: leBytes 8 0 ++ leBytes 4 data.length ++ data]

def leftBy (data : Bytes) : World :=
  serveAll flatOutside.toLibrary (ascii "/d") (some [ascii "d"]) [droppedAfter data] sampleStore

def reopen (w : World) : Outcome Fault Store × World :=
  openLocalStoreAt (ascii "/d") (some [ascii "d"]) quietHost w

/-- The honest transfer in a new session. -/
def pairSent (w : World) : Outcome Fault Unit × Session :=
  recvFiles flatOutside 1 quietHost ⟨⟨sendFileChunked pairTree pairEntry (.stop true),[],[]⟩,
    ⟨(reopen w).2,Descriptor.opened (ascii "/d") [ascii "d"]⟩⟩

def returns (r : Outcome ε α × σ) : Bool :=
  match r.1 with
  | .ok _ => true
  | _ => false

theorem reopen_eq {w : World} (fine : returns (reopen w) = true) :
    reopen w = (.ok (Descriptor.opened (ascii "/d") [ascii "d"]),(reopen w).2) := by
  rcases run : reopen w with ⟨s | e | _,w'⟩
  · rw [opened_descriptor _ _ |>.ok_of run]
  · rw [run] at fine
    cases fine
  · rw [run] at fine
    cases fine

theorem not_delivered_of {S : Path} {content : Bytes} {replies : List Bytes} {r : Outcome Fault Unit × Session}
    (failed : returns r = false) : ¬Delivered S content replies r := by
  rintro ⟨ok,-⟩
  rw [returns,ok] at failed
  cases failed

theorem pair_sendable : Sendable pairTree pairEntry where
  mode := by decide
  named := by decide
  size := rfl
  small := by decide
  digest := rfl
  whole off := by
    simp only [pairTree]
    split
    · next done => rw [done]; rfl
    · simp
  progress off piece hp := by
    simp only [pairTree] at hp
    split at hp
    · cases hp
    · next more =>
      rw [List.mem_singleton.mp hp]
      exact more
  chunks off piece hp := by
    have short : piece.length ≤ 2 := by
      simp only [pairTree] at hp
      split at hp
      · cases hp
      · rw [List.mem_singleton.mp hp,List.length_drop]
        exact Nat.sub_le _ _
    simp only [protocolMaxBodyUseful]
    omega

/-- One byte of the file was left: the transfer goes on after it. -/
theorem resume_delivers_pair : ∃ s w, reopen (leftBy [1]) = (.ok s,w) ∧
    Delivered (stageText [ascii "d"] ++ [] ++ [ascii "f"]) [1,2] []
      (recvFiles flatOutside 1 quietHost ⟨⟨sendFileChunked pairTree pairEntry (.stop true),[],[]⟩,⟨w,s⟩⟩) ∧
    (pairSent (leftBy [1])).2.conn.replies = [encodeFileAck 1] := by
  -- the world is a variable from here on: it must not be computed again
  obtain ⟨w,opening,site,kept,bare,raw,file,known⟩ : ∃ w,
      reopen (leftBy [1]) = (.ok (Descriptor.opened (ascii "/d") [ascii "d"]),w) ∧
      Descriptor.Site w.fs [ascii "d"] ∧
      w.fs.node (partialText [ascii "d"] ++ [] ++ [part (ascii "f")]) = some (.file 0o600 [1]) ∧
      w.fs.node (stageText [ascii "d"] ++ [] ++ [ascii "f"]) = none ∧
      ∃ raw, w.fs.node (partialText [ascii "d"] ++ [] ++ [record (ascii "f")]) = some (.file 0o600 raw) ∧
        (flatCodec.unmarshal raw).isSome = true := by
    refine ⟨(reopen (leftBy [1])).2,reopen_eq (by decide +kernel),?_,by decide +kernel,by decide +kernel,
      flatCodec.marshal ⟨ascii "f",0o644,2,sha256 [1,2],1⟩,by decide +kernel,by decide +kernel⟩
    exact ⟨by decide +kernel,by decide +kernel,fun p _ => FS.no_links (by decide +kernel) p⟩
  have only {mode : Nat} {data : Bytes} (at_ : w.fs.node (partialText [ascii "d"] ++ [] ++ [part (ascii "f")]) =
      some (.file mode data)) : data = [1] := by
    rw [kept] at at_
    cases at_
    rfl
  have room : Berth w.fs (stageText [ascii "d"]) (partialText [ascii "d"]) [] (ascii "f") w.fs := by
    refine ⟨Confined.refl _ _,fun r le => ?_,.inl bare,fun r le => ?_,.inr ⟨_,_,kept⟩⟩ <;>
      rw [List.prefix_nil.mp le,List.append_nil]
    · exact .inr site.stageDir
    · exact .inr site.partialDir
  have readable : Readable flatOutside.json (partialText [ascii "d"] ++ [] ++ [record (ascii "f")]) w.fs := by
    obtain ⟨m,read⟩ := Option.isSome_iff_exists.mp known
    exact .inr ⟨_,raw,m,file,read⟩
  refine ⟨_,w,opening,?_,by decide +kernel⟩
  refine (resume_delivers_iff flatOutside quietHost (fun _ _ => rfl) (ascii "/d") (some [ascii "d"])
    [droppedAfter [1]] sampleStore _ w opening _ _ [] (ascii "f") (.descriptor site) pairTree pairEntry pair_sendable
    (by decide +kernel) room readable (fun mode data at_ => ?_) (fun mode data at_ => ?_) (.stop true) []).mpr (.inr ?_)
  · rw [only at_]
    decide
  · rw [bare] at at_
    cases at_
  · rintro data ⟨m,-,-,⟨mode,at_⟩,-⟩
    rw [only at_]
    exact ⟨[2],rfl⟩

/-- Three wrong bytes under the name of a file of two are acknowledged to its owner, who gives up;
two wrong bytes end in a digest mismatch, and in the same one the next time. -/
theorem resume_poisoned :
    (∃ s w, reopen (leftBy [9,9,9]) = (.ok s,w) ∧
      ¬Delivered (stageText [ascii "d"] ++ [] ++ [ascii "f"]) [1,2] [] (recvFiles flatOutside 1 quietHost
        ⟨⟨sendFileChunked pairTree pairEntry (.stop true),[],[]⟩,⟨w,s⟩⟩)) ∧
    (pairSent (leftBy [9,9,9])).2.conn.replies.head? = some (encodeFileAck 3) ∧
    (∃ s w, reopen (leftBy [9,9]) = (.ok s,w) ∧
      ¬Delivered (stageText [ascii "d"] ++ [] ++ [ascii "f"]) [1,2] [] (recvFiles flatOutside 1 quietHost
        ⟨⟨sendFileChunked pairTree pairEntry (.stop true),[],[]⟩,⟨w,s⟩⟩)) ∧
    ¬Delivered (stageText [ascii "d"] ++ [] ++ [ascii "f"]) [1,2] []
      (pairSent (pairSent (leftBy [9,9])).2.receiver.world) :=
  ⟨⟨_,_,reopen_eq (by decide +kernel),not_delivered_of (by decide +kernel)⟩,by decide +kernel,
    ⟨_,_,reopen_eq (by decide +kernel),not_delivered_of (by decide +kernel)⟩,not_delivered_of (by decide +kernel)⟩

end Integris.RemoteSync
