import Integris.FileSystem
import Mathlib.Data.List.TakeWhile

/-! Lexical path texts: the slash-separated texts of canonical and relative
paths, and the functions of Go's `path/filepath` that the program applies to
them before it hands a text to the kernel. -/
namespace Integris.Posix

@[simp] theorem components_nil : components [] = [] := rfl

@[simp] theorem components_append (a b : Bytes) : components (a ++ slash :: b) = components a ++ components b := by
  unfold components List.splitOn
  rw [List.splitOnP_append_cons _ _ (by simp),List.filter_append]

@[simp] theorem components_cons (b : Bytes) : components (slash :: b) = components b := components_append [] b

variable {n : Name} {s : Bytes} {p : Path} {fs : FS} {comps acc : List Name} {x : Path}

theorem components_name (nonempty : n ≠ []) (plain : slash ∉ n) : components n = [n] := by
  unfold components List.splitOn
  rw [List.splitOnP_eq_singleton]
  · simp [nonempty]
  · intro x hx
    simp only [beq_eq_false_iff_ne,ne_eq]
    rintro rfl
    exact plain hx

theorem mem_components (h : n ∈ components s) : n ≠ [] ∧ slash ∉ n := by
  simp only [components,List.mem_filter,decide_eq_true_eq] at h
  refine ⟨h.2,fun inside => ?_⟩
  have : ∀ (xs acc : Bytes), slash ∉ acc → ∀ l ∈ List.splitOnPPrepend (· == slash) xs acc, slash ∉ l := by
    intro xs
    induction xs with
    | nil => simp [List.splitOnPPrepend]
    | cons x xs ih =>
      intro acc clean l hl
      simp only [List.splitOnPPrepend] at hl
      split at hl
      · rcases List.mem_cons.mp hl with rfl | hl
        · simpa using clean
        · exact ih [] (by simp) l hl
      · next ne =>
        refine ih (x :: acc) ?_ l hl
        simp only [beq_iff_eq] at ne
        simp [clean,Ne.symm ne]
  exact this s [] (by simp) n h.1 inside

/-- A canonical path as an absolute text. -/
def relText (p : Path) : Bytes := [slash].intercalate p

def absText (p : Path) : Bytes := slash :: relText p

/-- Names all the way down. -/
def Plain (p : Path) : Prop := ∀ n ∈ p, ValidName n

instance (p : Path) : Decidable (Plain p) := inferInstanceAs (Decidable (∀ n ∈ p, ValidName n))

@[simp] theorem plain_nil : Plain [] := by simp [Plain]

@[simp] theorem plain_append : Plain (p ++ q) ↔ Plain p ∧ Plain q := by
  simp only [Plain,List.mem_append,or_imp,forall_and]

@[simp] theorem plain_cons : Plain (n :: q) ↔ ValidName n ∧ Plain q := by simp [Plain]

theorem ValidName.down (h : ValidName n) : FS.Down n := ⟨h.2.1,h.2.2.1⟩

/-- An element `Clean` leaves alone. It may hold a zero byte, which the kernel refuses. -/
def Segment (n : Name) : Prop := n ≠ [] ∧ n ≠ dot ∧ n ≠ dotdot ∧ slash ∉ n

def Lexical (p : Path) : Prop := ∀ n ∈ p, Segment n

@[simp] theorem lexical_nil : Lexical [] := by simp [Lexical]

@[simp] theorem lexical_append : Lexical (p ++ q) ↔ Lexical p ∧ Lexical q := by
  simp only [Lexical,List.mem_append,or_imp,forall_and]

@[simp] theorem lexical_cons : Lexical (n :: q) ↔ Segment n ∧ Lexical q := by simp [Lexical]

theorem ValidName.segment (h : ValidName n) : Segment n := ⟨h.1,h.2.1,h.2.2.1,h.2.2.2.1⟩

theorem Plain.lexical (h : Plain p) : Lexical p := fun n hn => (h n hn).segment

theorem Plain.down (h : Plain p) : ∀ n ∈ p, FS.Down n := fun n hn => (h n hn).down

theorem FS.plain_of_present (h : fs.node p ≠ none) : Plain p := by
  induction p using List.reverseRecOn with
  | nil => simp
  | append_singleton p n ih =>
    simp only [plain_append,plain_cons,plain_nil,and_true]
    exact ⟨ih (FS.parent_isDir h).present,fs.named p n h⟩

@[simp] theorem relText_nil : relText [] = [] := rfl

@[simp] theorem relText_singleton (n : Name) : relText [n] = n := by simp [relText]

theorem relText_cons (n : Name) (more : p ≠ []) : relText (n :: p) = n ++ slash :: relText p := by
  obtain _ | ⟨m,p⟩ := p
  · exact absurd rfl more
  · simp [relText,List.intercalate]

theorem relText_append {p q : Path} (left : p ≠ []) (right : q ≠ []) :
    relText (p ++ q) = relText p ++ slash :: relText q := by
  induction p with
  | nil => exact absurd rfl left
  | cons n p ih =>
    by_cases h : p = []
    · subst h
      simpa using relText_cons n right
    · rw [List.cons_append,relText_cons n (by simp [h]),ih h,relText_cons n h]
      simp

theorem relText_length (p : Path) : (relText p).length ≤ (p.map List.length).sum + p.length := by
  induction p with
  | nil => simp
  | cons n p ih =>
    by_cases h : p = []
    · subst h; simp
    · rw [relText_cons n h]
      simp only [List.length_append,List.length_cons,List.map_cons,List.sum_cons]
      omega

theorem components_relText_of (names : ∀ n ∈ p, n ≠ [] ∧ slash ∉ n) : components (relText p) = p := by
  induction p with
  | nil => rfl
  | cons n p ih =>
    obtain ⟨nonempty,plain⟩ := names n List.mem_cons_self
    by_cases h : p = []
    · subst h
      simpa using components_name nonempty plain
    · rw [relText_cons n h,components_append,ih fun m hm => names m (List.mem_cons_of_mem _ hm),
        components_name nonempty plain]
      rfl

theorem components_relText (plain : Lexical p) : components (relText p) = p :=
  components_relText_of fun n hn => ⟨(plain n hn).1,(plain n hn).2.2.2⟩

@[simp] theorem components_absText (plain : Lexical p) : components (absText p) = p := by
  rw [absText,components_cons,components_relText plain]

theorem absText_append {p q : Path} (left : p ≠ []) (right : q ≠ []) :
    absText (p ++ q) = absText p ++ slash :: relText q := by
  simp [absText,relText_append left right]

theorem relText_injective {p q : Path} (hp : Lexical p) (hq : Lexical q) (h : relText p = relText q) : p = q := by
  rw [← components_relText hp,h,components_relText hq]

theorem absText_injective {p q : Path} (hp : Lexical p) (hq : Lexical q) (h : absText p = absText q) : p = q := by
  rw [← components_absText hp,h,components_absText hq]

@[simp] theorem isRooted_absText (p : Path) : isRooted (absText p) = true := rfl

theorem absText_ne_nil (p : Path) : absText p ≠ [] := by simp [absText]

theorem zero_not_mem_relText (plain : Plain p) : (0 : UInt8) ∉ relText p := by
  induction p with
  | nil => simp
  | cons n p ih =>
    obtain ⟨valid,rest⟩ := plain_cons.mp plain
    by_cases h : p = []
    · subst h; simpa using valid.2.2.2.2
    · rw [relText_cons n h]
      simp [valid.2.2.2.2,ih rest,slash]

theorem zero_not_mem_absText (plain : Plain p) : (0 : UInt8) ∉ absText p := by
  simp [absText,zero_not_mem_relText plain,slash]

theorem mem_relText {c : UInt8} (hn : n ∈ p) (hc : c ∈ n) : c ∈ relText p := by
  induction p with
  | nil => simp at hn
  | cons m p ih =>
    by_cases h : p = []
    · subst h
      rw [List.mem_singleton.mp hn] at hc
      simpa using hc
    · rw [relText_cons m h]
      rcases List.mem_cons.mp hn with rfl | hn
      · simp [hc]
      · simp [ih hn]

theorem Lexical.plain (h : Lexical p) (nonzero : (0 : UInt8) ∉ relText p) : Plain p := by
  intro n hn
  obtain ⟨a,b,c,d⟩ := h n hn
  exact ⟨a,b,c,d,fun zero => nonzero (mem_relText hn zero)⟩

theorem getLast?_relText (valid : Segment n) : (relText (p ++ [n])).getLast? = n.getLast? := by
  have tail : ∀ x : Bytes, (x ++ n).getLast? = n.getLast? := fun x => by rw [List.getLast?_append_of_ne_nil _ valid.1]
  by_cases h : p = []
  · subst h; simp
  · rw [relText_append h (by simp),relText_singleton]
    simpa using tail (relText p ++ [slash])

theorem endsInSlash_absText (valid : Segment n) : endsInSlash (absText (p ++ [n])) = false := by
  have ne : relText (p ++ [n]) ≠ [] := by
    intro h
    have := getLast?_relText (p := p) valid
    rw [h,List.getLast?_nil,eq_comm,List.getLast?_eq_none_iff] at this
    exact valid.1 this
  obtain ⟨b,rest⟩ := List.exists_cons_of_ne_nil ne
  have last : (absText (p ++ [n])).getLast? = n.getLast? := by
    rw [absText,← getLast?_relText (p := p) valid,show slash :: relText (p ++ [n]) =
      [slash] ++ relText (p ++ [n]) from rfl,List.getLast?_append_of_ne_nil _ ne]
  simp only [endsInSlash,last,decide_eq_false_iff_not]
  intro h
  exact valid.2.2.2 (List.mem_of_getLast? h)

/-! `path/filepath` on these texts. -/

/-- One element of a text under `Clean`. -/
def cleanStep (rooted : Bool) (acc : List Name) (c : Name) : List Name :=
  if c = dot then acc
  else if c = dotdot then
    if acc = [] then (if rooted then [] else [dotdot])
    else if acc.getLast? = some dotdot then acc ++ [dotdot]
    else acc.dropLast
  else acc ++ [c]

def clean (s : Bytes) : Bytes :=
  if isRooted s then absText ((components s).foldl (cleanStep true) [])
  else
    match (components s).foldl (cleanStep false) [] with
    | [] => dot
    | comps => relText comps

/-- `Join` of two elements: leading empty elements are ignored. -/
def join (a b : Bytes) : Bytes :=
  if a ≠ [] then clean (a ++ slash :: b) else if b ≠ [] then clean b else []

/-- The text up to its last slash. -/
def upToSlash (s : Bytes) : Bytes := (s.reverse.dropWhile (· ≠ slash)).reverse

def dir (s : Bytes) : Bytes := clean (upToSlash s)

def base (s : Bytes) : Bytes :=
  if s = [] then dot else (components s).getLast?.getD [slash]

/-- Drop what two component lists have in common. -/
def apart : List Name → List Name → List Name × List Name
  | b :: bs, t :: ts => if b = t then apart bs ts else (b :: bs, t :: ts)
  | bs, ts => (bs, ts)

def rel (basePath target : Bytes) : Option Bytes :=
  let b := clean basePath
  let t := clean target
  if t = b then some dot
  else if isRooted b ≠ isRooted t then none
  else
    let (up, down) := apart (if b = dot then [] else components b) (components t)
    if up.head? = some dotdot then none
    else some (relText (List.replicate up.length dotdot ++ down))

theorem cleanSteps_lexical (plain : Lexical p) (rooted : Bool) (acc : List Name) :
    p.foldl (cleanStep rooted) acc = acc ++ p := by
  induction p generalizing acc with
  | nil => simp
  | cons n p ih =>
    obtain ⟨valid,rest⟩ := lexical_cons.mp plain
    rw [List.foldl_cons,ih rest,cleanStep,if_neg valid.2.1,if_neg valid.2.2.1]
    simp

@[simp] theorem clean_absText (plain : Lexical p) : clean (absText p) = absText p := by
  rw [clean,isRooted_absText,if_pos rfl,components_absText plain,cleanSteps_lexical plain]
  rfl

theorem join_absText (plain : Lexical p) (s : Bytes) :
    join (absText p) s = absText ((components s).foldl (cleanStep true) p) := by
  have rooted : isRooted (absText p ++ slash :: s) = true := rfl
  rw [join,if_pos (absText_ne_nil p),clean,rooted,if_pos rfl,components_append,
    components_absText plain,List.foldl_append,cleanSteps_lexical plain,List.nil_append]

theorem join_name (plain : Lexical p) (valid : Segment n) : join (absText p) n = absText (p ++ [n]) := by
  rw [join_absText plain,components_name valid.1 valid.2.2.2,cleanSteps_lexical (lexical_cons.mpr ⟨valid,lexical_nil⟩)]

theorem join_relText {p q : Path} (plain : Lexical p) (below : Lexical q) :
    join (absText p) (relText q) = absText (p ++ q) := by
  rw [join_absText plain,components_relText below,cleanSteps_lexical below]

theorem upToSlash_append {a : Bytes} (h : slash ∉ n) : upToSlash (a ++ slash :: n) = a ++ [slash] := by
  have none_ : n.reverse.dropWhile (· ≠ slash) = [] := by
    rw [List.dropWhile_eq_nil_iff]
    intro x hx
    simp only [ne_eq,decide_eq_true_eq]
    rintro rfl
    exact h (List.mem_reverse.mp hx)
  rw [upToSlash,List.reverse_append,List.reverse_cons,List.append_assoc,List.dropWhile_append,none_]
  simp

theorem absText_concat (p : Path) (n : Name) : absText (p ++ [n]) = (if p = [] then [] else absText p) ++ slash :: n := by
  split
  · next h => subst h; simp [absText]
  · next h => rw [absText_append h (by simp),relText_singleton]

theorem dir_absText (plain : Lexical p) (valid : Segment n) : dir (absText (p ++ [n])) = absText p := by
  rw [dir,absText_concat,upToSlash_append valid.2.2.2]
  by_cases h : p = []
  · subst h; decide
  · have rooted : isRooted (absText p ++ [slash]) = true := rfl
    rw [if_neg h,clean,rooted,if_pos rfl,components_append,components_absText plain,components_nil,
      List.append_nil,cleanSteps_lexical plain,List.nil_append]

theorem apart_append (b t : Path) : apart b (b ++ t) = ([],t) := by
  induction b with
  | nil => simp [apart]
  | cons n b ih => simp [apart,ih]

theorem rel_absText {p q : Path} (plain : Lexical p) (below : Lexical q) (more : q ≠ []) :
    rel (absText p) (absText (p ++ q)) = some (relText q) := by
  have both : Lexical (p ++ q) := lexical_append.mpr ⟨plain,below⟩
  have differ : absText (p ++ q) ≠ absText p := fun h => by
    have := absText_injective both plain h
    simp [more] at this
  have notDot : absText p ≠ dot := by simp [absText,dot,slash]
  rw [rel,clean_absText plain,clean_absText both,if_neg differ]
  simp only [isRooted_absText,ne_eq,not_true,if_false,notDot,components_absText plain,components_absText both,apart_append]
  simp

/-! Texts that come from outside, with any shape. -/

theorem split_last (s : Bytes) : ∃ n, slash ∉ n ∧
    ((s = n ∧ upToSlash s = []) ∨ ∃ v, s = v ++ slash :: n ∧ upToSlash s = v ++ [slash]) := by
  refine ⟨(s.reverse.takeWhile (· ≠ slash)).reverse,?_,?_⟩
  · intro h
    have := List.mem_takeWhile_imp (List.mem_reverse.mp h)
    simp at this
  · have whole : s = upToSlash s ++ (s.reverse.takeWhile (· ≠ slash)).reverse := by
      rw [upToSlash,← List.reverse_append,List.takeWhile_append_dropWhile,List.reverse_reverse]
    rcases rest : s.reverse.dropWhile (· ≠ slash) with _ | ⟨c,v⟩
    · refine .inl ⟨?_,by rw [upToSlash,rest]; rfl⟩
      rw [upToSlash,rest] at whole
      exact whole
    · have hc : c = slash := by
        have := List.head?_dropWhile_not (· ≠ slash) s.reverse
        rw [rest] at this
        simpa using this
      subst hc
      refine .inr ⟨v.reverse,?_,by rw [upToSlash,rest]; simp⟩
      rw [upToSlash,rest] at whole
      simpa using whole

/-- What `Clean` makes of a text that is read from a directory down. -/
def cleaned (s : Bytes) : Path := (components s).foldl (cleanStep false) []

/-- The text never climbs above the directory it starts in. -/
def Stays (s : Bytes) : Prop := dotdot ∉ cleaned s

instance (s : Bytes) : Decidable (Stays s) := inferInstanceAs (Decidable (_ ∉ _))

/-- Once above, `Clean` never comes back. -/
theorem cleanSteps_climbed (h : dotdot ∈ acc) : dotdot ∈ comps.foldl (cleanStep false) acc := by
  induction comps generalizing acc with
  | nil => exact h
  | cons c comps ih =>
    apply ih
    unfold cleanStep
    split
    · exact h
    · split
      · have nonempty : acc ≠ [] := List.ne_nil_of_mem h
        rw [if_neg nonempty]
        split
        · simp
        · next last =>
          rw [← List.dropLast_append_getLast nonempty,List.mem_append] at h
          rcases h with inner | inner
          · exact inner
          · rw [List.getLast?_eq_some_getLast nonempty,← List.mem_singleton.mp inner] at last
            exact absurd rfl last
      · exact List.mem_append_left _ h

theorem cleanSteps_below (x : Path) (lexical : Lexical acc)
    (names : ∀ c ∈ comps, c ≠ [] ∧ slash ∉ c) (stays : dotdot ∉ comps.foldl (cleanStep false) acc) :
    comps.foldl (cleanStep true) (x ++ acc) = x ++ comps.foldl (cleanStep false) acc ∧
      Lexical (comps.foldl (cleanStep false) acc) := by
  induction comps generalizing acc with
  | nil => exact ⟨rfl,lexical⟩
  | cons c comps ih =>
    have later : ∀ c ∈ comps, c ≠ [] ∧ slash ∉ c := fun c hc => names c (List.mem_cons_of_mem _ hc)
    rw [List.foldl_cons] at stays
    rw [List.foldl_cons,List.foldl_cons]
    by_cases isDot : c = dot
    · simp only [cleanStep,isDot,if_true] at stays ⊢
      exact ih lexical later stays
    · by_cases isUp : c = dotdot
      · by_cases empty : acc = []
        · refine absurd (cleanSteps_climbed ?_) stays
          simp [cleanStep,isUp,empty,show dotdot ≠ dot by decide]
        · have last : acc.getLast? ≠ some dotdot := by
            intro h
            exact (lexical dotdot (List.mem_of_getLast? h)).2.2.1 rfl
          have lastX : (x ++ acc).getLast? ≠ some dotdot := by rwa [List.getLast?_append_of_ne_nil _ empty]
          have stepX : cleanStep true (x ++ acc) c = x ++ acc.dropLast := by
            rw [cleanStep,if_neg isDot,if_pos isUp,if_neg (by simp [empty]),if_neg lastX,
              List.dropLast_append_of_ne_nil empty]
          have step : cleanStep false acc c = acc.dropLast := by
            rw [cleanStep,if_neg isDot,if_pos isUp,if_neg empty,if_neg last]
          rw [stepX]
          rw [step] at stays ⊢
          exact ih (fun n hn => lexical n (List.mem_of_mem_dropLast hn)) later stays
      · have step : ∀ rooted acc, cleanStep rooted acc c = acc ++ [c] := fun _ _ => by
          rw [cleanStep,if_neg isDot,if_neg isUp]
        rw [step] at stays
        rw [step,step,List.append_assoc]
        obtain ⟨nonempty,noSlash⟩ := names c List.mem_cons_self
        exact ih (lexical_append.mpr ⟨lexical,by simp [Segment,isDot,isUp,nonempty,noSlash]⟩) later stays

theorem Stays.lexical (stays : Stays s) : Lexical (cleaned s) :=
  (cleanSteps_below [] lexical_nil (fun _ => mem_components) stays).2

theorem Stays.join (stays : Stays s) (plain : Lexical x) : Posix.join (absText x) s = absText (x ++ cleaned s) := by
  rw [join_absText plain]
  have := (cleanSteps_below x lexical_nil (fun _ => mem_components) stays).1
  rw [List.append_nil] at this
  rw [this]
  rfl

/-- An ending makes the last element a name, whatever it was. -/
theorem Stays.suffixed (stays : Stays s) : ∃ q n, ∀ t : Bytes, slash ∉ t → 3 ≤ t.length →
    cleaned (s ++ t) = q ++ [n ++ t] ∧ Lexical (q ++ [n ++ t]) ∧ Stays (s ++ t) := by
  obtain ⟨n,noSlash,shape⟩ := split_last s
  have segment : ∀ t : Bytes, slash ∉ t → 3 ≤ t.length → Segment (n ++ t) := by
    intro t ht long
    have size : 3 ≤ (n ++ t).length := by simp; omega
    refine ⟨?_,?_,?_,by simp [noSlash,ht]⟩ <;> (intro h; rw [h] at size; simp [dot,dotdot] at size)
  obtain ⟨v,lexical,split⟩ : ∃ v, Lexical v ∧ ∀ t : Bytes, slash ∉ t → 3 ≤ t.length → cleaned (s ++ t) = v ++ [n ++ t] := by
    rcases shape with ⟨rfl,-⟩ | ⟨v,rfl,-⟩
    · refine ⟨[],lexical_nil,fun t ht long => ?_⟩
      have seg := segment t ht long
      rw [cleaned,components_name seg.1 seg.2.2.2,List.foldl_cons,cleanStep,if_neg seg.2.1,
        if_neg seg.2.2.1]
      rfl
    · have inner : Stays v := fun h => by
        apply stays
        rw [cleaned,components_append,List.foldl_append]
        exact cleanSteps_climbed h
      refine ⟨cleaned v,inner.lexical,fun t ht long => ?_⟩
      have seg := segment t ht long
      rw [List.append_assoc,List.cons_append,cleaned,components_append,
        components_name seg.1 seg.2.2.2,List.foldl_append,List.foldl_cons,List.foldl_nil,cleanStep,
        if_neg seg.2.1,if_neg seg.2.2.1]
      rfl
  refine ⟨v,n,fun t ht long => ?_⟩
  have both : Lexical (v ++ [n ++ t]) := by simp [lexical,segment t ht long]
  refine ⟨split t ht long,both,fun h => ?_⟩
  rw [split t ht long] at h
  exact (both dotdot h).2.2.1 rfl

theorem mem_cleaned (h : n ∈ cleaned s) : n ≠ [] ∧ slash ∉ n := by
  have all : ∀ comps acc : List Name, (∀ n ∈ comps, n ≠ [] ∧ slash ∉ n) → (∀ n ∈ acc, n ≠ [] ∧ slash ∉ n) →
      ∀ n ∈ comps.foldl (cleanStep false) acc, n ≠ [] ∧ slash ∉ n := by
    intro comps
    induction comps with
    | nil => exact fun _ _ hacc => hacc
    | cons c comps ih =>
      intro acc hcomps hacc
      refine ih _ (fun n hn => hcomps n (List.mem_cons_of_mem _ hn)) fun n hn => ?_
      have up : dotdot ≠ [] ∧ slash ∉ dotdot := by decide
      unfold cleanStep at hn
      split at hn
      · exact hacc n hn
      · split at hn
        · split at hn
          · simp only [Bool.false_eq_true,if_false,List.mem_singleton] at hn
            exact hn ▸ up
          · split at hn
            · rcases List.mem_append.mp hn with old | new
              · exact hacc n old
              · exact List.mem_singleton.mp new ▸ up
            · exact hacc n (List.mem_of_mem_dropLast hn)
        · rcases List.mem_append.mp hn with old | new
          · exact hacc n old
          · exact List.mem_singleton.mp new ▸ hcomps c List.mem_cons_self
  exact all _ [] (fun _ => mem_components) (by simp) n h

theorem upToSlash_suffix {t : Bytes} (h : slash ∉ t) (s : Bytes) : upToSlash (s ++ t) = upToSlash s := by
  have none_ : t.reverse.dropWhile (· ≠ slash) = [] := by
    rw [List.dropWhile_eq_nil_iff]
    intro x hx
    simp only [ne_eq,decide_eq_true_eq]
    rintro rfl
    exact h (List.mem_reverse.mp hx)
  rw [upToSlash,List.reverse_append,List.dropWhile_append,none_]
  rfl

theorem isRooted_upToSlash (h : isRooted s = false) : isRooted (upToSlash s) = false := by
  obtain ⟨n,-,⟨-,up⟩ | ⟨v,rfl,up⟩⟩ := split_last s
  · rw [up]; rfl
  · rw [up]
    cases v with
    | nil => simp [isRooted] at h
    | cons c v => exact h

/-- If the directory part of a relative text names no `..`, the text does not climb before
its last element. -/
theorem stays_of_dir (rooted : isRooted s = false)
    (h : dir s ≠ dot ∧ dir s ≠ [] → dotdot ∉ (dir s).splitOn slash) : Stays (upToSlash s) := by
  intro climbs
  have nonempty : cleaned (upToSlash s) ≠ [] := List.ne_nil_of_mem climbs
  have text : dir s = relText (cleaned (upToSlash s)) := by
    rw [dir,clean,isRooted_upToSlash rooted]
    simp only [Bool.false_eq_true,if_false]
    change (match cleaned (upToSlash s) with | [] => dot | comps => relText comps) = _
    split
    · next empty => exact absurd empty nonempty
    · rfl
  have comps : components (dir s) = cleaned (upToSlash s) := by rw [text,components_relText_of fun _ => mem_cleaned]
  refine h ⟨?_,?_⟩ ?_
  · intro same
    rw [same] at comps
    rw [← comps] at climbs
    revert climbs
    decide
  · intro same
    rw [same] at comps
    exact nonempty comps.symm
  · rw [← comps] at climbs
    exact (List.mem_filter.mp climbs).1

theorem stays_dropLast (stays : Stays (upToSlash s)) : dotdot ∉ (components s).dropLast.foldl (cleanStep false) [] := by
  obtain ⟨n,plain,⟨rfl,-⟩ | ⟨v,rfl,up⟩⟩ := split_last s
  · by_cases h : s = []
    · subst h; simp
    · rw [components_name h plain]; simp
  · have inner : Stays v := by rwa [up,Stays,cleaned,components_append,components_nil,List.append_nil] at stays
    rw [components_append]
    by_cases h : n = []
    · subst h
      intro climbs
      apply inner
      rw [components_nil,List.append_nil] at climbs
      by_cases empty : components v = []
      · simp [empty] at climbs
      · rw [cleaned,← List.dropLast_append_getLast empty,List.foldl_append]
        exact cleanSteps_climbed climbs
    · rw [components_name h plain,List.dropLast_concat]
      exact inner

theorem absText_suffix (p : Path) (n t : Bytes) : absText (p ++ [n]) ++ t = absText (p ++ [n ++ t]) := by
  simp [absText_concat]

/-! Relative texts. -/

section relative

variable {p : Path} {n : Name}

theorem not_isRooted (h : slash ∉ n) : isRooted n = false := by
  cases n with
  | nil => rfl
  | cons c n => simpa [isRooted,eq_comm] using fun same : slash = c => h (by simp [same])

theorem relText_ne_nil (plain : Lexical p) (more : p ≠ []) : relText p ≠ [] := by
  intro empty
  have names := components_relText plain
  rw [empty,components_nil] at names
  exact more names.symm

theorem relText_ne_dot (plain : Lexical p) : relText p ≠ dot := by
  intro same
  have names := components_relText plain
  rw [same] at names
  have one : p = [dot] := names.symm
  exact (plain dot (by simp [one])).2.1 rfl

theorem isRooted_relText (plain : Lexical p) : isRooted (relText p) = false := by
  match p with
  | [] => rfl
  | [n] => simpa using not_isRooted (plain n (by simp)).2.2.2
  | m :: k :: p =>
    obtain ⟨nonempty,-,-,slashless⟩ := plain m (by simp)
    rw [relText_cons m (by simp)]
    cases m with
    | nil => exact absurd rfl nonempty
    | cons c m =>
      have other : slash ≠ c := fun same => slashless (same ▸ List.mem_cons_self)
      simp [isRooted,other.symm]

theorem endsInSlash_relText (valid : Segment n) : endsInSlash (relText (p ++ [n])) = false := by
  simp only [endsInSlash,getLast?_relText valid,decide_eq_false_iff_not]
  exact fun last => valid.2.2.2 (List.mem_of_getLast? last)

theorem base_relText (plain : Lexical (p ++ [n])) : base (relText (p ++ [n])) = n := by
  rw [base,if_neg (relText_ne_nil plain (by simp)),components_relText plain]
  simp

theorem dir_relText (plain : Lexical (p ++ [n])) : dir (relText (p ++ [n])) = if p = [] then dot else relText p := by
  have slashless : slash ∉ n := (plain n (by simp)).2.2.2
  have front : Lexical p := (lexical_append.mp plain).1
  by_cases h : p = []
  · subst h
    rw [if_pos rfl,List.nil_append,relText_singleton,dir]
    have none_ : upToSlash n = [] := upToSlash_suffix slashless []
    rw [none_]
    rfl
  · have rooted : isRooted (relText p ++ [slash]) = false := by
      rcases text : relText p with _ | ⟨c,s⟩
      · exact absurd text (relText_ne_nil front h)
      · have := isRooted_relText front
        rw [text] at this
        exact this
    rw [if_neg h,dir,relText_append h (by simp),relText_singleton,upToSlash_append slashless,clean,rooted,
      if_neg (by decide),components_append,components_relText front,components_nil,List.append_nil,
      cleanSteps_lexical front,List.nil_append]
    split
    · exact absurd rfl h
    · rfl

theorem splitOn_relText (plain : Lexical p) (more : p ≠ []) : (relText p).splitOn slash = p :=
  List.splitOn_intercalate _ (fun m hm => (plain m hm).2.2.2) more

end relative

/-! Where texts lead. -/

namespace FS

/-- The absolute text of `a` names the real directory `d`, and longer texts go on from there. -/
def Leads (fs : FS) (a d : Path) : Prop :=
  fs.IsDir d ∧ (∀ follow, ∃ pl, fs.walk follow maxLinks [] a = .ok pl ∧ pl.path = d) ∧
    ∃ budget, ∀ follow rest, rest ≠ [] →
      fs.walk follow maxLinks [] (a ++ rest) = fs.walk follow budget d rest

theorem pass_dirs {follow : Bool} {jump : Path → List Name → Except Errno Place}
    {rest : List Name} (cur : Path) (here : fs.IsDir (cur ++ p))
    (down : ∀ m ∈ p, Down m) (more : rest ≠ []) :
    fs.pass follow jump cur (p ++ rest) = fs.pass follow jump (cur ++ p) rest := by
  induction p generalizing cur with
  | nil => simp
  | cons m p ih =>
    have here' : fs.IsDir (cur ++ [m] ++ p) := by simpa using here
    rw [List.cons_append,pass_dir (down m (by simp)) (here'.above (List.prefix_append _ _))
      (by simp [more]),ih _ here' (fun x hx => down x (by simp [hx]))]
    simp

theorem leads_self {d : Path} (dir : fs.IsDir d) : fs.Leads d d := by
  have plain : Plain d := plain_of_present dir.present
  refine ⟨dir,?_,maxLinks,?_⟩
  · intro follow
    rcases List.eq_nil_or_concat' d with rfl | ⟨d,n,rfl⟩
    · exact ⟨.top [],rfl,rfl⟩
    · refine ⟨.entry d n,?_,rfl⟩
      exact walk_dir maxLinks [] (parent_isDir dir.present) plain.down fun _ => dir.not_isLink
  · intro follow rest more
    exact pass_dirs [] dir plain.down more

variable {fs : FS} {a d p : Path} {n : Name} {follow : Bool}

theorem place_zero (zero : (0 : UInt8) ∈ s) (base : Path) : fs.place follow base s = .error .inval := by
  rw [place,resolve,if_neg (List.ne_nil_of_mem zero),if_pos zero]

theorem place_absText (plain : Plain x) (base : Path) :
    fs.place follow base (absText x) = fs.walk follow maxLinks [] x := by
  rw [place,resolve,if_neg (absText_ne_nil x),if_neg (zero_not_mem_absText plain),
    isRooted_absText,if_pos rfl,components_absText plain.lexical]

theorem place_clear (leads : fs.Leads a d) (root : Plain a) (plain : Plain (p ++ [n])) (base : Path)
    (clear : ∀ q, q <+: p → ¬ fs.IsLink (d ++ q))
    (last : follow = true → ¬ fs.IsLink (d ++ p ++ [n])) :
    (fs.IsDir (d ++ p) ∧ fs.place follow base (absText (a ++ (p ++ [n]))) = .ok (.entry (d ++ p) n)) ∨
    (∃ q, q <+: p ∧ ¬ fs.IsDir (d ++ q) ∧ fs.place follow base (absText (a ++ (p ++ [n]))) =
      .error (if fs.node (d ++ q) = none then .noent else .notdir)) := by
  obtain ⟨dir,-,budget,onward⟩ := leads
  rw [place_absText (plain_append.mpr ⟨root,plain⟩),onward follow _ (by simp)]
  exact walk_clear budget dir plain.down clear last

theorem locate_absText (valid : Segment n) (base : Path) : fs.locate follow base (absText (x ++ [n])) =
      (fs.place follow base (absText (x ++ [n]))).bind fs.present := by
  rw [locate,lookupComponents,endsInSlash_absText valid]
  simp [place]

end FS

end Integris.Posix
