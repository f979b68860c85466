import Integris.FileSegment

/-! Journal sessions of several processes on one file, interleaved system call by system
call. Each session keeps the size it saw when it was opened or last appended, and no
lock is taken: a write behind a stale size lands on another session's record. Runs in
which every write finds the file as long as its session believes lose nothing. -/
namespace Integris.Journal.Sessions

open Codec Posix

/-- Where an `Append` stands: which system call it makes next. -/
inductive Phase where
  | closed
  | idle
  | reading (e : Item) (out : Prefix)
  | settingAside (e : Item)
  | writing (e : Item) (enc : Bytes)
  | syncing (e : Item) (enc : Bytes)

/-- `fileJournalSession`: the segment's cached size and the writer. -/
structure JournalSession where
  size : Nat := 0
  writer : SegmentWriter := ⟨1,genesisCommitment,false⟩
  phase : Phase := .closed

/-- The checks of `Append` behind `ReadPrefix`; a refused one is over. -/
def decided (s : JournalSession) (e : Item) (p : Prefix) : Phase :=
  if p.torn = true ∨ p.nextSequence ≠ s.writer.nextSeq then .idle
  else
    match encodeRecord (e.fields s.writer.nextSeq s.writer.prevCommitment) with
    | .error _ => .idle
    | .ok enc => if s.size + enc.length ≤ maxJournalSegmentBytes then .writing e enc else .idle

def proceed (s : JournalSession) (e : Item) (out : Prefix) : Phase :=
  if out.bytes < s.size then .reading e out else decided s e out

def startAppend (s : JournalSession) (e : Item) : Phase :=
  if 0 < s.size ∧ s.writer.nextSeq = 1 then .idle else proceed s e {}

/-- One read of `ReadPrefix`; no bytes are the end of the file, where its loop breaks off. -/
def readCall (file : Bytes) (s : JournalSession) (e : Item) (out : Prefix) : Phase :=
  let got := (file.drop out.bytes).take (window s.size out)
  if got = [] then decided s e out
  else
    match examine out got with
    | .more next => proceed s e next
    | .torn => .settingAside e
    | .failed _ => .idle

/-- `finishOpenJournal`: the file it leaves, and the session. -/
def opened (file : Bytes) : Bytes × Option JournalSession :=
  match openSegmentWriter (fileSegment none) (openFileSegment file) with
  | (.ok (w, p), _) =>
    if p.torn then
      match openSegmentWriter (fileSegment none) (openFileSegment (file.take p.bytes)) with
      | (.ok (w, _), _) => (file.take p.bytes,some ⟨p.bytes,w,.idle⟩)
      | _ => (file.take p.bytes,none)
    else (file,some ⟨file.length,w,.idle⟩)
  | _ => (file,none)

/-- The file, the sessions, and the records whose `Append` has returned success. -/
structure State (ι : Type) where
  file : Bytes
  sessions : ι → JournalSession := fun _ => {}
  completed : List Record := []

inductive Op (ι : Type) where
  | openSession (i : ι)
  | append (i : ι) (e : Item)
  | call (i : ι)
  | close (i : ι)

variable {ι : Type} [DecidableEq ι]

variable (st : State ι)

def State.set (i : ι) (s : JournalSession) : State ι :=
  { st with sessions := Function.update st.sessions i s }

/-- The next system call of a session. -/
def State.call (i : ι) : State ι :=
  let s := st.sessions i
  match s.phase with
  | .reading e out => st.set i { s with phase := readCall st.file s e out }
  | .settingAside _ => st.set i { s with phase := .idle }
  | .writing e enc =>
    { st.set i { s with size := s.size + enc.length, phase := .syncing e enc } with
      file := FS.spliced st.file s.size enc }
  | .syncing _ enc =>
    match selfDecode enc (s.size - enc.length) with
    | .ok rec =>
      { st.set i { s with writer := { s.writer with nextSeq := s.writer.nextSeq + 1
                                                    prevCommitment := rec.recordCommitment }
                          phase := .idle } with
        completed := st.completed ++ [rec] }
    | .error _ => st.set i { s with phase := .idle }
  | .closed | .idle => st

def State.step : Op ι → State ι
  | .openSession i =>
    match (st.sessions i).phase, opened st.file with
    | .closed, (file, some s) => { st.set i s with file := file }
    | .closed, (file, none) => { st with file := file }
    | _, _ => st
  | .append i e =>
    match (st.sessions i).phase with
    | .idle => st.set i { st.sessions i with phase := startAppend (st.sessions i) e }
    | _ => st
  | .call i => st.call i
  | .close i =>
    match (st.sessions i).phase with
    | .idle => st.set i {}
    | _ => st

def State.run (ops : List (Op ι)) : State ι := ops.foldl step st

def Phase.isWriting : Phase → Bool
  | .writing _ _ => true
  | _ => false

/-- A write finds the file as long as its session believes. -/
def Timely : Op ι → Prop
  | .call i => (st.sessions i).phase.isWriting = true → (st.sessions i).size = st.file.length
  | _ => True

def TimelyRun : State ι → List (Op ι) → Prop
  | _, [] => True
  | st, op :: ops => Timely st op ∧ TimelyRun (st.step op) ops

instance (st : State ι) : (op : Op ι) → Decidable (Timely st op)
  | .call _ => inferInstanceAs (Decidable (_ = true → _ = _))
  | .openSession _ | .append _ _ | .close _ => inferInstanceAs (Decidable True)

instance decidableTimelyRun : (st : State ι) → (ops : List (Op ι)) → Decidable (TimelyRun st ops)
  | _, [] => inferInstanceAs (Decidable True)
  | st, op :: ops =>
    have := decidableTimelyRun (st.step op) ops
    inferInstanceAs (Decidable (_ ∧ _))

/-- What a session knows of the records `es` in the file: it stands behind the first `k`. -/
inductive Knows (es : List Item) : JournalSession → Prop
  | closed {s : JournalSession} : s.phase = .closed → Knows es s
  | idle {s : JournalSession} (k : Nat) : k ≤ es.length → s.size = offsetOf es k →
      s.writer.At (es.take k) → s.phase = .idle → Knows es s
  | reading {s : JournalSession} (k j : Nat) (e : Item) : k ≤ es.length → s.size = offsetOf es k →
      s.writer.At (es.take k) → j < k → s.phase = .reading e (({} : Prefix).after (es.take j)) → Knows es s
  | writing {s : JournalSession} (k : Nat) (e : Item) : k ≤ es.length → s.size = offsetOf es k →
      s.writer.At (es.take k) → e.Fits → Sound (es.take k ++ [e]) →
      s.phase = .writing e (nextFields (es.take k) e).wire → Knows es s
  | syncing {s : JournalSession} (k : Nat) (inside : k < es.length) : s.size = offsetOf es (k + 1) →
      s.writer.At (es.take k) → s.phase = .syncing es[k] (nextFields (es.take k) es[k]).wire → Knows es s

section session

variable {es : List Item} {s : JournalSession} {i j k : Nat}

theorem sound_take (sound : Sound es) (k : Nat) : Sound (es.take k) where
  fits e he := sound.fits e (List.mem_of_mem_take he)
  limit := by
    have part := (bytesOf_front (es.take k) (es.drop k)).length_le
    rw [List.take_append_drop] at part
    exact part.trans sound.limit

theorem offsetOf_strict (lt : j < k) (le : k ≤ es.length) : offsetOf es j < offsetOf es k := by
  have before : j < (es.take k).length := by
    rw [List.length_take]
    omega
  have inside := offsetOf_lt before
  rwa [offsetOf,List.take_take,Nat.min_eq_left (Nat.le_of_lt lt)] at inside

/-- A session behind `k` records, whatever it does next. -/
structure Behind (es : List Item) (s : JournalSession) (k : Nat) : Prop where
  le : k ≤ es.length
  size : s.size = offsetOf es k
  writer : s.writer.At (es.take k)

theorem decided_knows (sound : Sound es) (h : Behind es s k) (e : Item) :
    Knows es { s with phase := decided s e (({} : Prefix).after (es.take k)) } := by
  have next : (({} : Prefix).after (es.take k)).nextSequence = s.writer.nextSeq := by
    rw [h.writer.next]
    exact Nat.add_comm 1 _
  have current : ¬ ((({} : Prefix).after (es.take k)).torn = true ∨
      (({} : Prefix).after (es.take k)).nextSequence ≠ s.writer.nextSeq) :=
    not_or.mpr ⟨by simp [Prefix.after],not_not.mpr next⟩
  have same : e.fields s.writer.nextSeq s.writer.prevCommitment = nextFields (es.take k) e := by
    rw [h.writer.next,h.writer.prev]
    rfl
  rw [decided,if_neg current,same]
  cases encoded : encodeRecord (nextFields (es.take k) e) with
  | error x => exact .idle k h.le h.size h.writer rfl
  | ok enc =>
    obtain ⟨legal,rfl⟩ := RecordFields.encodable_of_encode encoded
    dsimp only
    split
    · next room =>
      rw [h.size] at room
      exact .writing k e h.le h.size h.writer legal.payload (sound_append (sound_take sound k) legal.payload room) rfl
    · exact .idle k h.le h.size h.writer rfl

theorem proceed_knows (sound : Sound es) (h : Behind es s k) (le : j ≤ k) (e : Item) :
    Knows es { s with phase := proceed s e (({} : Prefix).after (es.take j)) } := by
  have bytes : (({} : Prefix).after (es.take j)).bytes = offsetOf es j := Nat.zero_add _
  unfold proceed
  split
  · next more =>
    rw [bytes,h.size] at more
    have lt : j < k := Nat.lt_of_le_of_ne le (fun same => by simp [same] at more)
    exact .reading k j e h.le h.size h.writer lt rfl
  · next done =>
    rw [bytes,h.size] at done
    obtain rfl : j = k := by
      by_contra ne
      exact done (offsetOf_strict (Nat.lt_of_le_of_ne le ne) h.le)
    exact decided_knows sound h e

theorem startAppend_knows (sound : Sound es) (h : Behind es s k) (e : Item) :
    Knows es { s with phase := startAppend s e } := by
  unfold startAppend
  split
  · exact .idle k h.le h.size h.writer rfl
  · exact proceed_knows sound h (Nat.zero_le k) e

theorem readCall_knows (sound : Sound es) (h : Behind es s k) (lt : j < k) (e : Item) :
    Knows es { s with phase := readCall (bytesOf es) s e (({} : Prefix).after (es.take j)) } := by
  have inside : j < es.length := Nat.lt_of_lt_of_le lt h.le
  have bytes : (({} : Prefix).after (es.take j)).bytes = offsetOf es j := Nat.zero_add _
  have fit := sound.fits _ (List.getElem_mem inside)
  obtain ⟨more,stored⟩ := stored_at inside
  -- what is asked for reaches over the next record
  have reach : (nextFields (es.take j) es[j]).wire.length ≤
      window s.size (({} : Prefix).after (es.take j)) := by
    have least : offsetOf es (j + 1) ≤ offsetOf es k := by
      rcases Nat.lt_or_eq_of_le (Nat.succ_le_of_lt lt) with before | same
      · exact Nat.le_of_lt (offsetOf_strict before h.le)
      · exact Nat.le_of_eq (congrArg _ same)
    have most := (RecordFields.length_bounds
      (nextFields_encodable fit : (nextFields (es.take j) es[j]).Encodable)).2.1
    have length := lengthOf_eq inside
    rw [lengthOf] at length
    rw [window,bytes,h.size,RecordFields.wire_length]
    omega
  have got : ((bytesOf es).drop (({} : Prefix).after (es.take j)).bytes).take
      (window s.size (({} : Prefix).after (es.take j))) = (nextFields (es.take j) es[j]).wire ++
        more.take (window s.size (({} : Prefix).after (es.take j)) -
          (nextFields (es.take j) es[j]).wire.length) := by
    rw [bytes,stored,List.take_append,List.take_of_length_le reach]
  have some_ : (nextFields (es.take j) es[j]).wire ++ more.take
      (window s.size (({} : Prefix).after (es.take j)) -
        (nextFields (es.take j) es[j]).wire.length) ≠ [] := by
    intro none_
    have := congrArg List.length none_
    have := length_pos (nextFields (es.take j) es[j])
    simp only [List.length_append,RecordFields.wire_length,List.length_nil] at *
    omega
  have count : (es.take j).length + 1 < 2 ^ 64 := by
    have := sound.count
    rw [List.length_take]
    omega
  unfold readCall
  dsimp only
  rw [got,if_neg some_,examine_next fit count,← take_next inside]
  exact proceed_knows sound h lt e

theorem Knows.grow (h : Knows es s) (e : Item) : Knows (es ++ [e]) s := by
  have longer : es.length ≤ (es ++ [e]).length := by simp
  have part : ∀ k ≤ es.length, (es ++ [e]).take k = es.take k := fun k le => List.take_append_of_le_length le
  have offset : ∀ k ≤ es.length, offsetOf (es ++ [e]) k = offsetOf es k := fun k le => by
    rw [offsetOf,part k le]
    rfl
  cases h with
  | closed phase => exact .closed phase
  | idle k le size writer phase =>
    exact .idle k (le.trans longer) (size.trans (offset k le).symm) (by rwa [part k le]) phase
  | reading k j e' le size writer lt phase =>
    refine .reading k j e' (le.trans longer) (size.trans (offset k le).symm) (by rwa [part k le]) lt ?_
    rwa [part j (by omega)]
  | writing k e' le size writer fits sound phase =>
    refine .writing k e' (le.trans longer) (size.trans (offset k le).symm) (by rwa [part k le]) fits ?_ ?_
    · rwa [part k le]
    · rwa [part k le]
  | syncing k inside size writer phase =>
    refine .syncing k (by omega) (size.trans (offset (k + 1) inside).symm) ?_ ?_
    · rwa [part k (by omega)]
    · rwa [part k (by omega),List.getElem_append_left inside]

end session

/-- The file holds a chain; only before the first session is opened may it have a tail. -/
structure Inv (st : State ι) (es : List Item) (t : Bytes) : Prop where
  sound : Sound es
  file : st.file = bytesOf es ++ t
  tail : Tail es t
  completed : ∀ r ∈ st.completed, r ∈ recordsOf 1 genesisCommitment es
  sessions : ∀ i, Knows es (st.sessions i)
  clean : t ≠ [] → ∀ i, (st.sessions i).phase = .closed

section step

variable {st : State ι} {es : List Item} {t : Bytes} {i : ι}

theorem Inv.moved (h : Inv st es t) {s : JournalSession} (knows : Knows es s)
    (open_ : (st.sessions i).phase ≠ .closed) : Inv (st.set i s) es t where
  sound := h.sound
  file := h.file
  tail := h.tail
  completed := h.completed
  sessions j := by
    by_cases same : j = i
    · subst same
      simpa [State.set] using knows
    · simpa [State.set,same] using h.sessions j
  clean some_ := absurd (h.clean some_ i) open_

omit [DecidableEq ι] in
theorem Inv.whole (h : Inv st es t) (open_ : (st.sessions i).phase ≠ .closed) : t = [] := by
  by_contra some_
  exact open_ (h.clean some_ i)

theorem record_mem {k : Nat} (inside : k < es.length) :
    (nextFields (es.take k) es[k]).record ∈ recordsOf 1 genesisCommitment es := by
  have part := recordsOf_front 1 genesisCommitment (es.take (k + 1)) (es.drop (k + 1))
  rw [List.take_append_drop,take_next inside,recordsOf_append,Nat.add_comm 1] at part
  exact part.subset (List.mem_append_right _ (List.mem_singleton.mpr rfl))

theorem inv_write (h : Inv st es t) {k : Nat} {e : Item} (le : k ≤ es.length)
    (size : (st.sessions i).size = offsetOf es k) (writer : (st.sessions i).writer.At (es.take k))
    (sound : Sound (es.take k ++ [e]))
    (phase : (st.sessions i).phase = .writing e (nextFields (es.take k) e).wire)
    (timely : (st.sessions i).size = st.file.length) : Inv (st.call i) (es ++ [e]) [] := by
  obtain rfl := h.whole (i := i) (by rw [phase]; simp)
  have file : st.file = bytesOf es := by rw [h.file,List.append_nil]
  -- nobody has appended since the session last looked
  obtain rfl : k = es.length := by
    by_contra ne
    have := offsetOf_strict (Nat.lt_of_le_of_ne le ne) (Nat.le_refl _)
    rw [← size,timely,file,offsetOf,List.take_length] at this
    exact Nat.lt_irrefl _ this
  rw [List.take_length] at sound writer phase
  have after : st.call i = { st.set i { st.sessions i with
      size := (st.sessions i).size + (nextFields es e).wire.length
      phase := .syncing e (nextFields es e).wire } with file := bytesOf (es ++ [e]) } := by
    simp only [State.call,phase,timely,file]
    rw [FS.spliced_end,bytesOf_append]
  rw [after]
  refine ⟨sound,(List.append_nil _).symm,tail_nil _,?_,?_,fun none_ => absurd rfl none_⟩
  · exact fun r hr => (recordsOf_front _ _ es [e]).subset (h.completed r hr)
  · intro j
    by_cases same : j = i
    · subst same
      have inside : es.length < (es ++ [e]).length := by simp
      simp only [State.set,Function.update_self]
      refine .syncing es.length inside ?_ ?_ ?_
      · rw [timely,file,offsetOf,List.take_of_length_le (by simp),bytesOf_append,List.length_append]
      · rwa [List.take_left]
      · rw [List.take_left,List.getElem_concat_length rfl]
    · simp only [State.set,Function.update_of_ne same]
      exact (h.sessions j).grow e

theorem inv_sync (h : Inv st es t) {k : Nat} (inside : k < es.length)
    (size : (st.sessions i).size = offsetOf es (k + 1)) (writer : (st.sessions i).writer.At (es.take k))
    (phase : (st.sessions i).phase = .syncing es[k] (nextFields (es.take k) es[k]).wire) :
    Inv (st.call i) es t := by
  have open_ : (st.sessions i).phase ≠ .closed := by rw [phase]; simp
  have decoded := selfDecode_wire (h.sound.fits _ (List.getElem_mem inside)) (sound_take h.sound k)
    ((st.sessions i).size - (nextFields (es.take k) es[k]).wire.length)
  have moved := writer.moved es[k]
  rw [← take_next inside] at moved
  have next := h.moved (i := i) (s := { st.sessions i with
    writer := { (st.sessions i).writer with
      nextSeq := (st.sessions i).writer.nextSeq + 1
      prevCommitment := (nextFields (es.take k) es[k]).commitment }
    phase := .idle }) (.idle (k + 1) inside size moved rfl) open_
  simp only [State.call,phase,decoded]
  refine ⟨next.sound,next.file,next.tail,?_,next.sessions,next.clean⟩
  intro r hr
  rcases List.mem_append.mp hr with old | new
  · exact h.completed r old
  · rw [List.mem_singleton.mp new]
    exact record_mem inside

theorem inv_call (h : Inv st es t) (timely : Timely st (.call i)) : ∃ es' t', Inv (st.call i) es' t' := by
  cases h.sessions i with
  | closed phase => exact ⟨es,t,by simpa only [State.call,phase] using h⟩
  | idle k le size writer phase => exact ⟨es,t,by simpa only [State.call,phase] using h⟩
  | reading k j e le size writer lt phase =>
    have open_ : (st.sessions i).phase ≠ .closed := by rw [phase]; simp
    have file : st.file = bytesOf es := by rw [h.file,h.whole open_,List.append_nil]
    refine ⟨es,t,?_⟩
    simp only [State.call,phase,file]
    exact h.moved (readCall_knows h.sound ⟨le,size,writer⟩ lt e) open_
  | writing k e le size writer fits sound phase =>
    exact ⟨es ++ [e],[],inv_write h le size writer sound phase (timely (by rw [phase]; rfl))⟩
  | syncing k inside size writer phase => exact ⟨es,t,inv_sync h inside size writer phase⟩

theorem opened_chain (sound : Sound es) (tail : Tail es t) :
    ∃ s, opened (bytesOf es ++ t) = (bytesOf es,some s) ∧ Knows es s := by
  have knows : ∀ w : SegmentWriter, w.At es → Knows es ⟨(bytesOf es).length,w,.idle⟩ := fun w at_ =>
    .idle es.length (Nat.le_refl _) (by rw [offsetOf,List.take_length]) (by rwa [List.take_length]) rfl
  obtain ⟨w,p,first,at_,bytes,isTorn⟩ := openSegmentWriter_chain (openFileSegment_shows (bytesOf es ++ t)) sound tail
  unfold opened
  rw [first]
  dsimp only
  by_cases torn : p.torn = true
  · have shows_ : (fileSegment none).Shows (openFileSegment (bytesOf es)) (bytesOf es ++ []) := by
      rw [List.append_nil]
      exact openFileSegment_shows _
    obtain ⟨w',p',second,at_',-⟩ := openSegmentWriter_chain shows_ sound (tail_nil es)
    rw [if_pos torn,bytes,List.take_left,second]
    exact ⟨_,rfl,knows w' at_'⟩
  · have none_ : t = [] := by
      by_contra some_
      exact torn (isTorn.mpr some_)
    subst none_
    rw [if_neg torn,List.append_nil]
    exact ⟨_,rfl,knows w at_⟩

theorem inv_open (h : Inv st es t) (closed : (st.sessions i).phase = .closed) :
    ∃ t', Inv (st.step (.openSession i)) es t' := by
  obtain ⟨s,done,knows⟩ := opened_chain h.sound h.tail
  refine ⟨[],?_⟩
  simp only [State.step,closed,h.file,done]
  refine ⟨h.sound,(List.append_nil _).symm,tail_nil es,h.completed,?_,fun none_ => absurd rfl none_⟩
  intro j
  by_cases same : j = i
  · subst same
    simpa [State.set] using knows
  · simpa [State.set,same] using h.sessions j

theorem inv_step (h : Inv st es t) (op : Op ι) (timely : Timely st op) : ∃ es' t', Inv (st.step op) es' t' := by
  cases op with
  | openSession i =>
    by_cases closed : (st.sessions i).phase = .closed
    · obtain ⟨t',inv⟩ := inv_open h closed
      exact ⟨es,t',inv⟩
    · refine ⟨es,t,?_⟩
      simp only [State.step]
      split
      · next phase _ => exact absurd phase closed
      · next phase _ => exact absurd phase closed
      · exact h
  | append i e =>
    refine ⟨es,t,?_⟩
    cases h.sessions i with
    | idle k le size writer phase =>
      simp only [State.step,phase]
      exact h.moved (startAppend_knows h.sound ⟨le,size,writer⟩ e) (by rw [phase]; simp)
    | closed phase
    | reading _ _ _ _ _ _ _ phase
    | writing _ _ _ _ _ _ _ phase
    | syncing _ _ _ _ phase => simpa only [State.step,phase] using h
  | call i => exact inv_call h timely
  | close i =>
    refine ⟨es,t,?_⟩
    simp only [State.step]
    split
    · next phase => exact h.moved (.closed rfl) (by rw [phase]; simp)
    · exact h

theorem inv_run {ops : List (Op ι)} (h : Inv st es t) (timely : TimelyRun st ops) : ∃ es' t', Inv (st.run ops) es' t' := by
  induction ops generalizing st es t with
  | nil => exact ⟨es,t,h⟩
  | cons op ops ih =>
    obtain ⟨now,later⟩ := timely
    obtain ⟨es',t',next⟩ := inv_step h op now
    exact ih next later

end step

/-- Sessions on one journal file, however their calls interleave, as long as every write is
timely: the final file reads without a fatal error and holds every record whose append
returned success. -/
theorem timely_sessions_lose_nothing {es : List Item} {t : Bytes} {ops : List (Op ι)} (sound : Sound es)
    (tail : Tail es t) (timely : TimelyRun (ι := ι) { file := bytesOf es ++ t } ops) :
    ∃ p, readPrefix (State.run { file := bytesOf es ++ t } ops).file = .ok p ∧
      ∀ r ∈ (State.run { file := bytesOf es ++ t } ops).completed, r ∈ p.records := by
  have start : Inv ({ file := bytesOf es ++ t } : State ι) es t :=
    ⟨sound,rfl,tail,by simp,fun _ => .closed rfl,fun _ _ => rfl⟩
  obtain ⟨now,rest,inv⟩ := inv_run start timely
  obtain ⟨torn,tornOffset,-,read⟩ := readPrefix_ok inv.sound.fits inv.tail (Nat.le_of_lt inv.sound.count)
  rw [inv.file,read]
  exact ⟨_,rfl,inv.completed⟩

/-- One session appends a record, the other one opened at the same time. -/
def overlapping : List (Op Bool) :=
  [.openSession true,.openSession false,.append true ⟨Fixed.zero 16,.observation,[]⟩,.call true,
    .call true,.append false ⟨Fixed.zero 16,.quarantine,[]⟩,.call false,.call false]

/-- Both appends return success, and the second record lies over the first. -/
theorem overlapping_session_overwrites :
    (readPrefix (State.run { file := [] } overlapping).file).toOption.map
      (fun p => (State.run { file := [] } overlapping).completed.map fun r => decide (r ∈ p.records)) =
      some [false,true] := by
  decide +kernel

/-- The same appends with the second session opened after the first append. -/
def oneAfterAnother : List (Op Bool) :=
  [.openSession true,.append true ⟨Fixed.zero 16,.observation,[]⟩,.call true,.call true,
    .openSession false,.append false ⟨Fixed.zero 16,.quarantine,[]⟩,.call false,.call false,.call false]

theorem timely_sessions_sample :
    (State.run { file := bytesOf [] ++ [] } oneAfterAnother).completed.length = 2 ∧
    ∃ p, readPrefix (State.run { file := bytesOf [] ++ [] } oneAfterAnother).file = .ok p ∧
      ∀ r ∈ (State.run { file := bytesOf [] ++ [] } oneAfterAnother).completed, r ∈ p.records :=
  ⟨by decide +kernel,timely_sessions_lose_nothing sound_nil (tail_nil []) (by decide +kernel)⟩

end Integris.Journal.Sessions
