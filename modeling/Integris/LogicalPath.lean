import Integris.Apply

/-! Which texts are logical paths, and what they become below a root: the grammar
accepts the slash-joins of its component lists and nothing else, and cleaning
leaves an accepted text as it is. -/
namespace Integris.LocalSync

open Posix PathGrammar

section grammar

variable {nfc : NFCTables}

theorem validateComponent_plain {c : Bytes} {index : Int} (h : validateComponent nfc {} c index = .ok ()) :
    (92 : UInt8) ∉ c ∧ isAbsoluteComponent c = false := by
  simp only [validateComponent,reject_ok,except_unit_bind_ok] at h
  obtain ⟨-,-,-,-,seps,absolute,-⟩ := h
  exact ⟨(separators_ok seps).2.2,by simpa using absolute⟩

theorem mem_of_mem_relText {p : Path} {b : UInt8} (hb : b ∈ relText p) : b = slash ∨ ∃ n ∈ p, b ∈ n := by
  induction p with
  | nil => cases hb
  | cons n p ih =>
    by_cases more : p = []
    · subst more
      exact .inr ⟨n,by simp,by simpa using hb⟩
    · rw [relText_cons n more,List.mem_append,List.mem_cons] at hb
      rcases hb with hb | hb | hb
      · exact .inr ⟨n,by simp,hb⟩
      · exact .inl hb
      · rcases ih hb with sep | ⟨m,hm,inside⟩
        · exact .inl sep
        · exact .inr ⟨m,by simp [hm],inside⟩

theorem isAbsoluteJoined_relText {n : Name} {p : Path} (valid : ValidName n) (back : (92 : UInt8) ∉ n)
    (relative : isAbsoluteComponent n = false) : isAbsoluteJoined (relText (n :: p)) = false := by
  obtain ⟨b,rest,rfl⟩ := List.exists_cons_of_ne_nil valid.1
  have notSlash : b ≠ slash := by
    rintro rfl
    exact valid.2.2.2.1 (by simp)
  have notBack : b ≠ 92 := by
    rintro rfl
    exact back (by simp)
  by_cases more : p = []
  · subst more
    cases rest with
    | nil => simp [isAbsoluteJoined,notSlash,notBack]
    | cons b1 rest => simpa [isAbsoluteJoined,isAbsoluteComponent,notSlash,notBack] using relative
  · rw [relText_cons _ more]
    cases rest with
    | nil =>
      have sep : slash ≠ 58 := by decide
      simp [isAbsoluteJoined,notSlash,notBack,sep]
    | cons b1 rest => simpa [isAbsoluteJoined,isAbsoluteComponent,notSlash,notBack] using relative

theorem relText_head {n : Name} {p : Path} (valid : ValidName n) : (relText (n :: p)).head? ≠ some slash := by
  obtain ⟨b,rest,rfl⟩ := List.exists_cons_of_ne_nil valid.1
  have notSlash : b ≠ slash := by
    rintro rfl
    exact valid.2.2.2.1 (by simp)
  by_cases more : p = []
  · subst more
    simpa using notSlash
  · rw [relText_cons _ more]
    simpa using notSlash

theorem validateRel_of_components {comps : List Bytes} (ok : validateComponents nfc {} comps = .ok ()) :
    validateRel nfc (relText comps) = .ok () := by
  obtain ⟨nonempty,count,each⟩ := by simpa only [validateComponents,reject_ok,except_unit_bind_ok] using ok
  have valid : ∀ c ∈ comps, ValidName c := fun c hc => ((validateEach_ok each).1 c hc).1
  have plain : ∀ c ∈ comps, (92 : UInt8) ∉ c ∧ isAbsoluteComponent c = false := by
    intro c hc
    obtain ⟨i,accepted⟩ := validateEach_mem each hc
    exact validateComponent_plain accepted
  have split : (relText comps).splitOn slash = comps :=
    List.splitOn_intercalate slash (fun c hc => (valid c hc).2.2.2.1) nonempty
  have back : (92 : UInt8) ∉ relText comps := by
    intro h
    rcases mem_of_mem_relText h with sep | ⟨c,hc,inside⟩
    · exact absurd sep (by decide)
    · exact (plain c hc).1 inside
  obtain ⟨n,p,rfl⟩ := List.exists_cons_of_ne_nil nonempty
  have head := relText_head (p := p) (valid n (by simp))
  have text : relText (n :: p) ≠ [] := by
    intro h
    have ne := (valid n (by simp)).1
    rw [h] at split
    simp only [List.splitOn_nil,List.cons.injEq] at split
    exact ne split.1.symm
  have relative := isAbsoluteJoined_relText (p := p) (valid n (by simp)) (plain n (by simp)).1 (plain n (by simp)).2
  have joined : validateJoined nfc (relText (n :: p)) = .ok (n :: p) := by
    simp only [validateJoined,split,ok,reject,demand,text,relative]
    rfl
  rw [validateRel,demand,if_pos ⟨text,head,back⟩,joined]
  rfl

theorem validateRel_iff {rel : Bytes} : validateRel nfc rel = .ok () ↔
    ∃ comps, rel = relText comps ∧ validateComponents nfc {} comps = .ok () := by
  constructor
  · intro ok
    simp only [validateRel,except_unit_bind_ok] at ok
    rcases joined : validateJoined nfc rel with e | comps
    · simp [joined] at ok
    · obtain ⟨split,text,-⟩ := validateJoined_ok joined
      simp only [validateJoined,except_unit_bind_ok] at joined
      exact ⟨comps,text,split ▸ joined.2.2.1⟩
  · rintro ⟨comps,rfl,ok⟩
    exact validateRel_of_components ok

end grammar

section roots

variable {nfc : NFCTables} {root rel : Bytes}

theorem cleanSteps_rooted {comps acc : List Name} (names : ∀ c ∈ comps, c ≠ [] ∧ slash ∉ c)
    (lexical : Lexical acc) : Lexical (comps.foldl (cleanStep true) acc) := by
  induction comps generalizing acc with
  | nil => exact lexical
  | cons c comps ih =>
    refine ih (fun d hd => names d (by simp [hd])) ?_
    obtain ⟨nonempty,plain⟩ := names c (by simp)
    unfold cleanStep
    simp only [if_true]
    split_ifs with isDot isUp top climbed
    · exact lexical
    · exact lexical_nil
    · exact absurd rfl (lexical dotdot (List.mem_of_getLast? climbed)).2.2.1
    · exact fun n hn => lexical n (List.mem_of_mem_dropLast hn)
    · exact lexical_append.mpr ⟨lexical,lexical_cons.mpr ⟨⟨nonempty,isDot,isUp,plain⟩,lexical_nil⟩⟩

theorem absText_of_clean (rooted : isRooted root = true) (cleaned : clean root = root) :
    ∃ a, Lexical a ∧ root = absText a := by
  refine ⟨(components root).foldl (cleanStep true) [],cleanSteps_rooted (fun c hc => mem_components hc) lexical_nil,?_⟩
  rw [clean,if_pos rooted] at cleaned
  exact cleaned.symm

/-- A clean text that names something under the root, not the root itself. -/
def StrictlyBelow (root native : Bytes) : Prop :=
  clean native = native ∧ ∃ q, q ≠ [] ∧ components native = components root ++ q

theorem joinUnder_text {a : Path} (lexical : Lexical a) (ok : validateRel nfc rel = .ok ()) :
    joinUnder nfc (absText a) rel = (if absText a = [slash] then [] else absText a) ++ slash :: rel := by
  obtain ⟨p,good⟩ := validateRel_ok ok
  rw [joinUnder_lexical lexical good ok]
  by_cases top : a = []
  · subst top
    simp [absText,good.text]
  · have other : absText a ≠ [slash] := fun h => top (absText_injective lexical lexical_nil (h.trans rfl))
    rw [if_neg other,absText_append top good.nonempty,good.text]

theorem joinUnder_below {a : Path} (lexical : Lexical a) (ok : validateRel nfc rel = .ok ()) :
    StrictlyBelow (absText a) (joinUnder nfc (absText a) rel) := by
  obtain ⟨p,good⟩ := validateRel_ok ok
  have both : Lexical (a ++ p) := lexical_append.mpr ⟨lexical,good.plain.lexical⟩
  rw [joinUnder_lexical lexical good ok]
  exact ⟨clean_absText both,p,good.nonempty,by rw [components_absText both,components_absText lexical]⟩

/-- Logical paths map one to one below a clean absolute root. The root directory
itself already ends in the slash the others get. -/
theorem logical_paths_one_to_one (nfc : NFCTables) (root : Bytes) (rooted : isRooted root = true)
    (cleaned : clean root = root) :
    (∀ rel, validateRel nfc rel = .ok () ↔
      ∃ comps, rel = relText comps ∧ validateComponents nfc {} comps = .ok ()) ∧
    (∀ rel, validateRel nfc rel = .ok () →
      joinUnder nfc root rel = (if root = [slash] then [] else root) ++ slash :: rel ∧
      joinUnder nfc root rel ≠ [] ∧ StrictlyBelow root (joinUnder nfc root rel)) ∧
    ∀ rel rel', validateRel nfc rel = .ok () → validateRel nfc rel' = .ok () → rel ≠ rel' →
      joinUnder nfc root rel ≠ joinUnder nfc root rel' := by
  obtain ⟨a,lexical,rfl⟩ := absText_of_clean rooted cleaned
  refine ⟨fun rel => validateRel_iff,fun rel ok => ?_,fun rel rel' ok ok' differ same => ?_⟩
  · have text := joinUnder_text lexical ok
    refine ⟨text,?_,joinUnder_below lexical ok⟩
    rw [text]
    simp
  · rw [joinUnder_text lexical ok,joinUnder_text lexical ok'] at same
    simp only [List.append_cancel_left_eq,List.cons.injEq,true_and] at same
    exact differ same

theorem logical_paths_one_to_one_srv :
    isRooted (ascii "/srv") = true ∧ clean (ascii "/srv") = ascii "/srv" ∧
      joinUnder asciiTables (ascii "/srv") (ascii "a/b") = ascii "/srv/a/b" := by
  have rooted : isRooted (ascii "/srv") = true := by decide
  have cleaned : clean (ascii "/srv") = ascii "/srv" := by decide
  refine ⟨rooted,cleaned,?_⟩
  obtain ⟨-,text,-⟩ := logical_paths_one_to_one asciiTables (ascii "/srv") rooted cleaned
  exact (text (ascii "a/b") (by decide +kernel)).1.trans (by decide)

/-- Below the root directory the slash is not written twice. -/
theorem joinUnder_top : isRooted (ascii "/") = true ∧ clean (ascii "/") = ascii "/" ∧
    validateRel asciiTables (ascii "f") = .ok () ∧
    joinUnder asciiTables (ascii "/") (ascii "f") = ascii "/f" ∧
    joinUnder asciiTables (ascii "/") (ascii "f") ≠ ascii "/" ++ slash :: ascii "f" := by
  decide +kernel

end roots

end Integris.LocalSync
