import Mathlib.Computability.Language

/-!
grep.c: the pattern matcher. A string is the list of its bytes before the NUL. The language
that a pattern stands for is given on its own, by items and Mathlib's languages.
-/
namespace ColorXv6.User.GrepMatch
open scoped Computability

def caret : UInt8 := 94
def dollar : UInt8 := 36
def star : UInt8 := 42
def dot : UInt8 := 46

/-- `here` is `matchhere` at the rest of the pattern. -/
def matchstar (here : List UInt8 → Bool) (c : UInt8) : List UInt8 → Bool
  | [] => here []
  | t :: text => here (t :: text) || (t == c || c == dot) && matchstar here c text

def matchhere : List UInt8 → List UInt8 → Bool
  | [], _ => true
  | [r], text =>
    if r = dollar then text.isEmpty
    else
      match text with
      | [] => false
      | t :: text => (r == dot || r == t) && matchhere [] text
  | r :: s :: re, text =>
    if s = star then matchstar (fun text => matchhere re text) r text
    else
      match text with
      | [] => false
      | t :: text => (r == dot || r == t) && matchhere (s :: re) text

/-- The loop of `match`, which looks at the empty string too. -/
def matchFrom (re : List UInt8) : List UInt8 → Bool
  | [] => matchhere re []
  | t :: text => matchhere re (t :: text) || matchFrom re text

/-- `match` of grep.c. -/
def matchText (re text : List UInt8) : Bool :=
  match re with
  | [] => matchFrom [] text
  | r :: re => if r = caret then matchhere re text else matchFrom (r :: re) text

/-! What a pattern means. -/

inductive Atom where
  | any
  | only (c : UInt8)
deriving DecidableEq

inductive Item where
  | one (a : Atom)
  | many (a : Atom)
deriving DecidableEq

def Atom.Accepts : Atom → UInt8 → Prop
  | .any, _ => True
  | .only c, t => t = c

/-- The texts of one character. -/
def Atom.lang (a : Atom) : Language UInt8 := { w | ∃ t, a.Accepts t ∧ w = [t] }

def Item.lang : Item → Language UInt8
  | .one a => a.lang
  | .many a => a.lang∗

/-- The texts of the items, one after the other. -/
def lang (items : List Item) : Language UInt8 := (items.map Item.lang).prod

def atomOf (c : UInt8) : Atom := if c = dot then .any else .only c

/-- A pattern without its caret, read from left to right: its items, and whether an unstarred
dollar ends it. -/
def items : List UInt8 → List Item × Bool
  | [] => ([], false)
  | [r] => if r = dollar then ([], true) else ([.one (atomOf r)], false)
  | r :: s :: re =>
    if s = star then ((.many (atomOf r)) :: (items re).1, (items re).2)
    else ((.one (atomOf r)) :: (items (s :: re)).1, (items (s :: re)).2)

/-- Whether the pattern starts with a caret, and the pattern after it. -/
def anchor : List UInt8 → Bool × List UInt8
  | [] => (false, [])
  | r :: re => if r = caret then (true, re) else (false, r :: re)

/-- Some part of the text is in the language of the pattern. -/
def Occurs (re text : List UInt8) : Prop :=
  ∃ before part after, text = before ++ part ++ after ∧ part ∈ lang (items (anchor re).2).1 ∧
    ((anchor re).1 = true → before = []) ∧ ((items (anchor re).2).2 = true → after = [])

/-! The matcher against the language. -/

variable {w : List UInt8} {a : Atom}

theorem mem_lang_nil : w ∈ lang [] ↔ w = [] := Language.mem_one w

theorem mem_lang_cons {item : Item} {rest : List Item} :
    w ∈ lang (item :: rest) ↔ ∃ u ∈ item.lang, ∃ v ∈ lang rest, u ++ v = w := by
  unfold lang
  rw [List.map_cons, List.prod_cons, Language.mem_mul]

theorem mem_lang_one {rest : List Item} :
    w ∈ lang (.one a :: rest) ↔ ∃ t v, a.Accepts t ∧ v ∈ lang rest ∧ w = t :: v := by
  rw [mem_lang_cons]
  constructor
  · rintro ⟨u, ⟨t, accepts, rfl⟩, v, inside, rfl⟩
    exact ⟨t, v, accepts, inside, rfl⟩
  · rintro ⟨t, v, accepts, inside, rfl⟩
    exact ⟨[t], ⟨t, accepts, rfl⟩, v, inside, rfl⟩

/-- Copies of a character that an atom accepts. -/
theorem mem_star_atom : w ∈ a.lang∗ ↔ ∀ t ∈ w, a.Accepts t := by
  rw [Language.mem_kstar]
  constructor
  · rintro ⟨parts, rfl, each⟩ t mem
    obtain ⟨part, inside, here⟩ := List.mem_flatten.mp mem
    obtain ⟨c, accepts, rfl⟩ := each part inside
    rwa [List.mem_singleton.mp here]
  · intro all
    refine ⟨w.map fun t => [t], ?_, ?_⟩
    · induction w with
      | nil => rfl
      | cons t w ih => simp [← ih fun c mem => all c (List.mem_cons_of_mem t mem)]
    · intro part mem
      obtain ⟨t, inside, rfl⟩ := List.mem_map.mp mem
      exact ⟨t, all t inside, rfl⟩

theorem accepts_atomOf (c t : UInt8) : (atomOf c).Accepts t ↔ t = c ∨ c = dot := by
  unfold atomOf
  split
  · rename_i any
    exact ⟨fun _ => .inr any, fun _ => trivial⟩
  · rename_i one
    exact ⟨.inl, fun either => either.resolve_right one⟩

/-- The loop of `matchstar`: some copies of the character, and then the rest. -/
theorem matchstar_iff (here : List UInt8 → Bool) (c : UInt8) (text : List UInt8) :
    matchstar here c text = true ↔
      ∃ copies rest, text = copies ++ rest ∧ (∀ t ∈ copies, (atomOf c).Accepts t) ∧ here rest = true := by
  induction text with
  | nil =>
    constructor
    · intro yes
      exact ⟨[], [], rfl, nofun, yes⟩
    · rintro ⟨copies, rest, split, -, yes⟩
      obtain ⟨rfl, rfl⟩ := List.append_eq_nil_iff.mp split.symm
      exact yes
  | cons t text ih =>
    have step : matchstar here c (t :: text) = true ↔
        here (t :: text) = true ∨ (atomOf c).Accepts t ∧ matchstar here c text = true := by
      rw [matchstar, accepts_atomOf]
      simp only [Bool.or_eq_true, Bool.and_eq_true, beq_iff_eq]
    rw [step, ih]
    constructor
    · rintro (yes | ⟨accepts, copies, rest, rfl, all, yes⟩)
      · exact ⟨[], t :: text, rfl, nofun, yes⟩
      · exact ⟨t :: copies, rest, rfl, List.forall_mem_cons.mpr ⟨accepts, all⟩, yes⟩
    · rintro ⟨copies, rest, split, all, yes⟩
      cases copies with
      | nil =>
        rw [List.nil_append] at split
        exact .inl (split ▸ yes)
      | cons c' copies =>
        obtain ⟨rfl, later⟩ := List.cons.inj split
        obtain ⟨accepts, all⟩ := List.forall_mem_cons.mp all
        exact .inr ⟨accepts, copies, rest, later, all, yes⟩

/-- One character of the pattern that is neither starred nor the last dollar. -/
theorem single_iff {r : UInt8} {rest : List UInt8 → Bool} {text : List UInt8} :
    (match text with
      | [] => false
      | t :: text => (r == dot || r == t) && rest text) = true ↔
    ∃ t after, text = t :: after ∧ (atomOf r).Accepts t ∧ rest after = true := by
  cases text with
  | nil => simp
  | cons t text =>
    simp only [Bool.and_eq_true, Bool.or_eq_true, beq_iff_eq, List.cons.injEq, accepts_atomOf]
    constructor
    · rintro ⟨accepts, yes⟩
      exact ⟨t, text, ⟨rfl, rfl⟩, accepts.elim .inr fun same => .inl same.symm, yes⟩
    · rintro ⟨t, text, ⟨rfl, rfl⟩, accepts, yes⟩
      exact ⟨accepts.elim (fun same => .inr same.symm) .inl, yes⟩

/-- `matchhere` looks for the pattern at the start of the text. -/
def Starts (re text : List UInt8) : Prop :=
  ∃ part after, text = part ++ after ∧ part ∈ lang (items re).1 ∧ ((items re).2 = true → after = [])

theorem starts_one {re re' text : List UInt8}
    (head : items re = (.one a :: (items re').1, (items re').2)) :
    Starts re text ↔ ∃ t after, text = t :: after ∧ a.Accepts t ∧ Starts re' after := by
  unfold Starts
  rw [head]
  constructor
  · rintro ⟨part, after, rfl, inside, whole⟩
    obtain ⟨t, v, accepts, later, rfl⟩ := mem_lang_one.mp inside
    exact ⟨t, v ++ after, rfl, accepts, v, after, rfl, later, whole⟩
  · rintro ⟨t, _, rfl, accepts, v, after, rfl, inside, whole⟩
    exact ⟨t :: v, after, rfl, mem_lang_one.mpr ⟨t, v, accepts, inside, rfl⟩, whole⟩

theorem starts_many {re re' text : List UInt8}
    (head : items re = (.many a :: (items re').1, (items re').2)) :
    Starts re text ↔
      ∃ copies rest, text = copies ++ rest ∧ (∀ t ∈ copies, a.Accepts t) ∧ Starts re' rest := by
  unfold Starts
  rw [head]
  constructor
  · rintro ⟨part, after, rfl, inside, whole⟩
    obtain ⟨copies, all, v, later, rfl⟩ := mem_lang_cons.mp inside
    exact ⟨copies, v ++ after, List.append_assoc .., mem_star_atom.mp all, v, after, rfl, later, whole⟩
  · rintro ⟨copies, _, rfl, all, v, after, rfl, inside, whole⟩
    exact ⟨copies ++ v, after, (List.append_assoc ..).symm,
      mem_lang_cons.mpr ⟨copies, mem_star_atom.mpr all, v, inside, rfl⟩, whole⟩

theorem starts_nil (text : List UInt8) : Starts [] text :=
  ⟨[], text, rfl, mem_lang_nil.mpr rfl, nofun⟩

theorem matchhere_last (r : UInt8) (text : List UInt8) : matchhere [r] text =
    if r = dollar then text.isEmpty
    else
      match text with
      | [] => false
      | t :: text => (r == dot || r == t) && matchhere [] text := rfl

theorem matchhere_more (r s : UInt8) (re text : List UInt8) : matchhere (r :: s :: re) text =
    if s = star then matchstar (matchhere re) r text
    else
      match text with
      | [] => false
      | t :: text => (r == dot || r == t) && matchhere (s :: re) text := rfl

theorem matchhere_iff (re text : List UInt8) : matchhere re text = true ↔ Starts re text := by
  -- the cases are those of the pattern, read two characters at a time
  induction re using items.induct generalizing text with
  | case1 => exact ⟨fun _ => starts_nil text, fun _ => rfl⟩
  | case2 =>
    have last : items [dollar] = ([], true) := rfl
    rw [matchhere_last, if_pos rfl, List.isEmpty_iff]
    unfold Starts
    rw [last]
    constructor
    · rintro rfl
      exact ⟨[], [], rfl, mem_lang_nil.mpr rfl, fun _ => rfl⟩
    · rintro ⟨part, after, rfl, inside, whole⟩
      rw [mem_lang_nil.mp inside, whole rfl]
      rfl
  | case3 r other =>
    have head : items [r] = (.one (atomOf r) :: (items []).1, (items []).2) := if_neg other
    rw [matchhere_last, if_neg other, single_iff, starts_one head]
    constructor
    · rintro ⟨t, after, rfl, accepts, -⟩
      exact ⟨t, after, rfl, accepts, starts_nil after⟩
    · rintro ⟨t, after, rfl, accepts, -⟩
      exact ⟨t, after, rfl, accepts, rfl⟩
  | case4 r re ih =>
    have head : items (r :: star :: re) = (.many (atomOf r) :: (items re).1, (items re).2) := rfl
    rw [matchhere_more, if_pos rfl, matchstar_iff,
      starts_many head]
    simp only [ih]
  | case5 r s re other ih =>
    have head : items (r :: s :: re) = (.one (atomOf r) :: (items (s :: re)).1, (items (s :: re)).2) := by
      rw [items, if_neg other]
    rw [matchhere_more, if_neg other, single_iff, starts_one head]
    simp only [ih]

/-- The loop of `match`: the pattern at the start of some end of the text. -/
theorem matchFrom_iff (re text : List UInt8) :
    matchFrom re text = true ↔ ∃ before rest, text = before ++ rest ∧ Starts re rest := by
  induction text with
  | nil =>
    rw [matchFrom, matchhere_iff]
    constructor
    · intro starts
      exact ⟨[], [], rfl, starts⟩
    · rintro ⟨before, rest, split, starts⟩
      obtain ⟨rfl, rfl⟩ := List.append_eq_nil_iff.mp split.symm
      exact starts
  | cons t text ih =>
    rw [matchFrom, Bool.or_eq_true, matchhere_iff, ih]
    constructor
    · rintro (starts | ⟨before, rest, rfl, starts⟩)
      · exact ⟨[], t :: text, rfl, starts⟩
      · exact ⟨t :: before, rest, rfl, starts⟩
    · rintro ⟨before, rest, split, starts⟩
      cases before with
      | nil =>
        rw [List.nil_append] at split
        exact .inl (split ▸ starts)
      | cons c before =>
        obtain ⟨-, later⟩ := List.cons.inj split
        exact .inr ⟨before, rest, later, starts⟩

/-- The matcher finds exactly the texts in which the pattern occurs. -/
theorem matchText_iff_occurs (re text : List UInt8) : matchText re text = true ↔ Occurs re text := by
  have floating : ∀ re, matchFrom re text = true ↔
      ∃ before part after, text = before ++ part ++ after ∧ part ∈ lang (items re).1 ∧
        (false = true → before = []) ∧ ((items re).2 = true → after = []) := by
    intro re
    rw [matchFrom_iff]
    constructor
    · rintro ⟨before, _, rfl, part, after, rfl, inside, whole⟩
      exact ⟨before, part, after, (List.append_assoc ..).symm, inside, nofun, whole⟩
    · rintro ⟨before, part, after, rfl, inside, -, whole⟩
      exact ⟨before, part ++ after, List.append_assoc .., part, after, rfl, inside, whole⟩
  unfold Occurs
  cases re with
  | nil => exact floating []
  | cons r re =>
    unfold matchText anchor
    dsimp only
    split
    · rw [matchhere_iff]
      constructor
      · rintro ⟨part, after, rfl, inside, whole⟩
        exact ⟨[], part, after, rfl, inside, fun _ => rfl, whole⟩
      · rintro ⟨before, part, after, rfl, inside, first, whole⟩
        rw [first rfl]
        exact ⟨part, after, rfl, inside, whole⟩
    · exact floating (r :: re)

/-- `a*$` in "baa", and `^.b` not in "cab". -/
example : matchText [97, 42, 36] [98, 97, 97] = true ∧ matchText [94, 46, 98] [99, 97, 98] = false := by
  decide

end ColorXv6.User.GrepMatch
