import Integris.HandshakeRun

/-! Frames one after another on a byte stream. The transport hands the stream out in pieces
of its own; the header alone tells the reader where a frame ends. -/
namespace Integris.Remote

open Crypto Protocol Prog

/-- `io.ReadFull` on the pieces still to come; one read takes no more than one piece. -/
def fill (what : String) : Nat → List Bytes → Except RemoteError (Bytes × List Bytes)
  | 0, pieces => .ok ([], pieces)
  | _ + 1, [] => .error { kind := .transport, message := what }
  | n + 1, p :: pieces =>
    if n + 1 < p.length then .ok (p.take (n + 1), p.drop (n + 1) :: pieces)
    else do
      let (got, rest) ← fill what (n + 1 - p.length) pieces
      .ok (p ++ got, rest)

def readPieces (n : Nat) (what : String) : Prog Unit (List Bytes) RemoteError Bytes := fun _ pieces =>
  match fill what n pieces with
  | .ok (got, rest) => (.ok got, rest)
  | .error e => (.error e, [])

/-- At most `n` calls of `ReadFrame`: the frames, and the error that ended them. -/
def readFrames : Nat → List Bytes → List Bytes × Option RemoteError
  | 0, _ => ([], none)
  | n + 1, pieces =>
    match readFrameBy readPieces () pieces with
    | (.ok raw, rest) => ((raw :: (readFrames n rest).1), (readFrames n rest).2)
    | (.error e, _) => ([], some e)
    | (.crashed, _) => ([], none)

variable {what : String} {n : Nat} {pieces rest : List Bytes} {got raw part : Bytes} {e : RemoteError}

theorem fill_ok (run : fill what n pieces = .ok (got,rest)) : got.length = n ∧ got ++ rest.flatten = pieces.flatten := by
  induction pieces generalizing n got with
  | nil =>
    cases n with
    | zero => cases run; simp
    | succ n => cases run
  | cons p pieces ih =>
    cases n with
    | zero => cases run; simp
    | succ n =>
      rw [fill] at run
      split at run
      · next long =>
        cases run
        rw [List.length_take,List.flatten_cons,← List.append_assoc,List.take_append_drop]
        exact ⟨by omega,rfl⟩
      · obtain ⟨⟨more,later⟩,inner,done⟩ := except_bind_ok.mp run
        cases done
        obtain ⟨size,whole⟩ := ih inner
        rw [List.length_append,size,List.append_assoc,whole]
        exact ⟨by omega,rfl⟩

theorem fill_error (run : fill what n pieces = .error e) : pieces.flatten.length < n := by
  induction pieces generalizing n with
  | nil =>
    cases n with
    | zero => cases run
    | succ n => simp
  | cons p pieces ih =>
    cases n with
    | zero => cases run
    | succ n =>
      rw [fill] at run
      split at run
      · cases run
      · rcases inner : fill what (n + 1 - p.length) pieces with e | ⟨more,later⟩
        · rw [inner] at run
          cases run
          have short := ih inner
          rw [List.flatten_cons,List.length_append]
          omega
        · rw [inner] at run
          cases run

/-- How the stream is cut into pieces makes no difference to a frame. -/
theorem readPieces_spec (pieces : List Bytes) : wp (readFrameBy readPieces) () pieces
    (fun raw rest => nextFrame pieces.flatten = some (raw,rest.flatten))
    (fun _ _ => nextFrame pieces.flatten = none) (fun _ => False) := by
  refine (readFrameBy_spec List.flatten (fun _ => ()) (fun n what _ pieces => ?_) () pieces).ends
    (fun _ _ => And.left) (fun _ _ => And.left)
  rcases run : fill what n pieces with e | ⟨got,rest⟩
  · simp only [wp,readPieces,run]
    exact ⟨fill_error run,trivial⟩
  · simp only [wp,readPieces,run]
    exact ⟨(fill_ok run).1,(fill_ok run).2,trivial⟩

theorem encode_headed {f : Frame} {key : Bytes} (encoded : encode f key = .ok raw) : Headed raw := by
  unfold encode at encoded
  extract_lets g at encoded
  clear_value g
  simp only [check_bind_ok] at encoded
  obtain ⟨-,-,-,small,encoded⟩ := encoded
  split at encoded
  · obtain ⟨-,done⟩ := check_bind_ok.mp encoded
    cases done
    exact headed_parts small (by decide : flagRequiresMAC < 256 ^ 2) (hmacSHA256_length _ _)
  · next plain =>
    cases encoded
    rw [not_or,not_not] at plain
    rw [← List.append_nil (g.header ++ g.body)]
    exact headed_parts small (by rw [plain.1]; decide) (by rw [plain.1]; rfl)

theorem Headed.cut (framed : Headed raw) (front : part <+: raw) (short : part ≠ raw) : nextFrame part = none := by
  obtain ⟨f,small,flags,head,size⟩ := framed
  have less : part.length < raw.length := lt_of_le_of_ne front.length_le fun h => short (front.eq_of_length h)
  by_cases whole : headerBytes ≤ part.length
  · have same : part.take headerBytes = f.header := by
      obtain ⟨more,rfl⟩ := front
      rw [← head,List.take_append_of_le_length whole]
    rw [nextFrame_headed small flags same,if_neg (by omega)]
  · exact if_neg fun all => whole all.1

/-- The reader is past the whole frames when it comes to what follows them. -/
theorem readFrames_front {front : List Bytes} (framed : ∀ raw ∈ front, Headed raw)
    (whole : pieces.flatten = front.flatten ++ part) : ∃ rest : List Bytes, rest.flatten = part ∧
      ∀ m, readFrames (front.length + m) pieces = (front ++ (readFrames m rest).1,(readFrames m rest).2) := by
  induction front generalizing pieces with
  | nil => exact ⟨pieces,whole,fun m => by simp⟩
  | cons raw front ih =>
    rw [List.flatten_cons,List.append_assoc] at whole
    have next := (framed raw List.mem_cons_self).next (front.flatten ++ part)
    rw [← whole] at next
    have read := readPieces_spec pieces
    rcases run : readFrameBy readPieces () pieces with ⟨got | e | _,later⟩ <;> rw [wp,run] at read
    · obtain ⟨rfl,later_⟩ := Prod.mk.inj (Option.some.inj (next.symm.trans read))
      obtain ⟨rest,last,reads⟩ := ih (fun raw h => framed raw (List.mem_cons_of_mem _ h)) later_.symm
      refine ⟨rest,last,fun m => ?_⟩
      rw [List.length_cons,Nat.succ_add,readFrames,run]
      simp [reads]
    · cases next.symm.trans read
    · exact read.elim

/-- Whatever the transport's pieces: the frames of a stream come back one by one, and a stream
cut inside a frame ends in an error after the frames before it. -/
theorem frames_resynchronise (raws pieces : List Bytes)
    (encoded : ∀ raw ∈ raws, ∃ f key, encode f key = .ok raw) :
    (pieces.flatten = raws.flatten → readFrames raws.length pieces = (raws, none)) ∧
    ∀ front raw back part, raws = front ++ raw :: back → part <+: raw → part ≠ raw →
      pieces.flatten = front.flatten ++ part → ∃ e, readFrames (front.length + 1) pieces = (front, some e) := by
  have framed : ∀ raw ∈ raws, Headed raw := by
    intro raw h
    obtain ⟨f,key,run⟩ := encoded raw h
    exact encode_headed run
  refine ⟨fun whole => ?_,?_⟩
  · obtain ⟨rest,-,reads⟩ := readFrames_front framed (whole.trans (List.append_nil _).symm)
    exact (reads 0).trans (by simp [readFrames])
  · rintro front raw back part rfl inside short whole
    obtain ⟨rest,last,reads⟩ := readFrames_front (fun raw h => framed raw (List.mem_append_left _ h)) whole
    have none_ := (framed raw (by simp)).cut inside short
    have read := readPieces_spec rest
    rcases run : readFrameBy readPieces () rest with ⟨got | e | _,later⟩ <;> rw [wp,run] at read
    · rw [← last,read] at none_
      cases none_
    · exact ⟨e,(reads 1).trans (by simp [readFrames,run])⟩
    · exact read.elim

/-- A frame without and one with an authenticator, in two pieces, and cut. -/
theorem frames_resynchronise_pair : ∃ plain sealed : Bytes,
    encode bareFrame [] = .ok plain ∧ encode bareFrame (List.replicate 16 1) = .ok sealed ∧
    readFrames 2 [plain.take 7,plain.drop 7 ++ sealed] = ([plain,sealed], none) ∧
    ∃ e, readFrames 2 [plain ++ sealed.take 50] = ([plain], some e) := by
  refine ⟨bareFrame.header ++ bareFrame.body,bareFrame.wire (List.replicate 16 1),rfl,rfl,?_⟩
  have read (pieces : List Bytes) := frames_resynchronise
    [bareFrame.header ++ bareFrame.body,bareFrame.wire (List.replicate 16 1)] pieces (by
      rw [List.forall_mem_cons,List.forall_mem_singleton]
      exact ⟨⟨bareFrame,[],rfl⟩,⟨bareFrame,List.replicate 16 1,rfl⟩⟩)
  refine ⟨(read _).1 ?_,(read _).2 [_] _ [] ((bareFrame.wire (List.replicate 16 1)).take 50) rfl
    (List.take_prefix _ _) (fun same => ?_) (by simp)⟩
  · rw [List.flatten_cons,List.flatten_singleton,← List.append_assoc,List.take_append_drop]
    simp
  · have size := congrArg List.length same
    simp [Frame.wire,Frame.signed,macSHA256,headerBytes,bareFrame] at size

end Integris.Remote
