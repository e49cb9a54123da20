import ColorXv6.Dev.Console
import Mathlib.Data.List.DropRight

/-!
Console input is a line-edited stream. The reference is an editor over lists: it
holds the text committed so far and the line being typed, and knows no ring, no
counters and no lock. Every run of the console refines it, and readers consume a
prefix of what it commits.
-/
namespace ColorXv6.Dev.LineEditor
open Lib.Ring Lib.Runs Console

/-! The reference. -/

structure Editor where
  committed : List UInt8
  line : List UInt8
  /-- how much of the committed text readers have consumed -/
  consumed : Nat

def Editor.blank : Editor := { committed := [], line := [], consumed := 0 }

/-- All places of the buffer are taken by characters not consumed yet. -/
def Editor.full (ed : Editor) : Prop := ed.consumed + inputBuf ≤ ed.committed.length + ed.line.length

instance (ed : Editor) : Decidable ed.full := inferInstanceAs (Decidable (_ ≤ _))

def Editor.commit (ed : Editor) : Editor := { ed with committed := ed.committed ++ ed.line, line := [] }

def Editor.append (ed : Editor) (c : UInt8) : Editor := { ed with line := ed.line ++ [c] }

def Editor.key (ed : Editor) (c : UInt8) : Editor :=
  if c = ctrlP then ed
  else if c = ctrlU then { ed with line := ed.line.rdropWhile (· ≠ newline) }
  else if c = ctrlH ∨ c = del then { ed with line := ed.line.dropLast }
  else if c = 0 ∨ ed.full then ed
  else
    let longer := ed.append (Console.translate c)
    if Console.translate c = newline ∨ Console.translate c = ctrlD ∨ longer.full then longer.commit else longer

def Editor.event (ed : Editor) : Event → Editor
  | .key c => ed.key c
  | .consume _ _ => { ed with consumed := ed.consumed + 1 }

def edited (events : List Event) : Editor := events.foldl Editor.event Editor.blank

def Event.character : Event → Option UInt8
  | .key _ => none
  | .consume _ c => some c

/-- What readers consumed, in order. -/
def consumed (events : List Event) : List UInt8 := events.filterMap Event.character

/-- `r <= w <= e <= r + INPUT_BUF`, modulo 2^32. -/
def Ordered (i : Input) : Prop := sub i.w i.r ≤ sub i.e i.r ∧ sub i.e i.r ≤ inputBuf

/-! Arithmetic of the counters. -/

theorem sub_lt (a b : Nat) : sub a b < 2 ^ 32 := Nat.mod_lt _ (by decide)

theorem sub_next {r : Nat} (small : r < 2 ^ 32) : sub ((r + 1) % 2 ^ 32) 1 = r := by
  unfold sub
  omega

theorem next_sub {r : Nat} (small : r < 2 ^ 32) : (sub r 1 + 1) % 2 ^ 32 = r := by
  unfold sub
  omega

/-- With `r` one further, both distances from it shrink by one. -/
theorem sub_sub_one {a r : Nat} (small : a < 2 ^ 32) (range : r < 2 ^ 32) (apart : sub r 1 ≠ a) :
    sub a r + 1 = sub a (sub r 1) := by
  unfold sub at *
  omega

/-! The buffer as a ring between `r` and `e`, with `w` inside. -/

def ring (i : Input) : Buffer UInt8 := { data := i.buf, nread := i.r, nwrite := i.e }

/-- The ring holds what is committed and not consumed, then the line. -/
structure Refines (i : Input) (taken : List UInt8) (ed : Editor) (pending : List UInt8) : Prop where
  ok : (ring i).Ok geometry
  range : i.w < 2 ^ 32
  contents : (ring i).contents geometry = pending ++ ed.line
  committed : sub i.w i.r = pending.length
  text : ed.committed = taken ++ pending
  consumed : ed.consumed = taken.length

section Step
variable {i : Input} {taken pending : List UInt8} {ed : Editor}

theorem count_eq_sub (i : Input) : (ring i).count geometry = sub i.e i.r := rfl

variable (h : Refines i taken ed pending)
include h

theorem Refines.length :
    sub i.e i.r = pending.length + ed.line.length := by
  have length := congrArg List.length h.contents
  rw [Buffer.contents, List.length_map, List.length_range, List.length_append, count_eq_sub] at length
  exact length

theorem Refines.ordered : Ordered i := by
  have room := h.ok.room
  rw [count_eq_sub] at room
  exact ⟨by rw [h.committed, h.length]; omega, room⟩

theorem Refines.uncommitted : sub i.e i.w = ed.line.length := by
  have length := h.length
  have committed := h.committed
  have writeSmall := h.range
  unfold sub at *
  omega

theorem Refines.line_nil_iff : i.e = i.w ↔ ed.line = [] := by
  rw [← List.length_eq_zero_iff, ← h.uncommitted]
  have editSmall : i.e < 2 ^ 32 := h.ok.write
  have writeSmall := h.range
  unfold sub
  omega

theorem Refines.pending_nil_iff : i.r = i.w ↔ pending = [] := by
  rw [← List.length_eq_zero_iff, ← h.committed]
  have readSmall : i.r < 2 ^ 32 := h.ok.read
  have writeSmall := h.range
  unfold sub
  omega

theorem Refines.full_iff : ed.full ↔ ¬ sub i.e i.r < inputBuf := by
  unfold Editor.full
  rw [h.length, h.text, h.consumed, List.length_append]
  omega

/-- Taking back the last character of the line. -/
theorem Refines.retract (some : i.e ≠ i.w) :
    ∃ front, ed.line = front ++ [i.buf (sub i.e 1 % inputBuf)] ∧
      Refines { i with e := sub i.e 1 } taken { ed with line := front } pending := by
  have nonempty : ed.line ≠ [] := fun nil => some (h.line_nil_iff.mpr nil)
  have elements : 0 < (ring i).count geometry := by
    rw [count_eq_sub, h.length]
    have := List.length_pos_iff.mpr nonempty
    omega
  have split := retract_contents h.ok elements
  obtain ⟨front, last, line⟩ : ∃ front last, ed.line = front ++ [last] :=
    ⟨_, _, (List.dropLast_append_getLast nonempty).symm⟩
  rw [h.contents, line, ← List.append_assoc] at split
  obtain ⟨shorter, same⟩ := List.append_inj' split rfl
  have lastEq : last = i.buf (sub i.e 1 % inputBuf) := List.head_eq_of_cons_eq same
  refine ⟨front, by rw [line, lastEq], ?_⟩
  exact ⟨retract_ok h.ok elements, h.range, shorter.symm, h.committed, h.text, h.consumed⟩

theorem Refines.backspace :
    Refines i.backspace taken { ed with line := ed.line.dropLast } pending := by
  unfold Input.backspace
  split
  · rename_i some
    obtain ⟨front, line, shorter⟩ := h.retract some
    rw [line, List.dropLast_concat]
    exact shorter
  · rename_i none
    have nil := h.line_nil_iff.mp (by simpa using none)
    rw [nil, List.dropLast_nil, ← nil]
    exact h

/-- The loop of ^U, by induction over what is left of the line. -/
theorem Refines.killFrom {turns : Nat} (enough : ed.line.length = turns) :
    Refines (killFrom turns i) taken { ed with line := ed.line.rdropWhile (· ≠ newline) } pending := by
  induction turns generalizing i ed with
  | zero =>
    have nil := List.length_eq_zero_iff.mp enough
    rw [nil, List.rdropWhile_nil, ← nil]
    exact h
  | succ turns ih =>
    have some : i.e ≠ i.w := fun same => by
      rw [h.line_nil_iff.mp same] at enough
      cases enough
    obtain ⟨front, line, shorter⟩ := h.retract some
    rw [Console.killFrom]
    split
    · rename_i more
      rw [line, List.rdropWhile_concat_pos _ _ _ (by simpa using more.2)]
      refine ih shorter ?_
      simpa [line] using enough
    · rename_i stop
      have last : i.buf (sub i.e 1 % inputBuf) = newline := by
        by_contra other
        exact stop ⟨some, other⟩
      rw [line, List.rdropWhile_concat_neg _ _ _ (by simp [last]), ← line]
      exact h

theorem Refines.append (room : sub i.e i.r < inputBuf) (c : UInt8) :
    Refines (i.append c) taken (ed.append c) pending where
  __ := h
  ok := push_ok h.ok room c
  contents := by
    have longer := push_contents h.ok room c
    rw [h.contents, List.append_assoc] at longer
    exact longer

theorem Refines.commit :
    Refines { i with w := i.e } taken ed.commit (pending ++ ed.line) where
  ok := h.ok
  range := h.ok.write
  contents := by
    rw [Editor.commit, List.append_nil]
    exact h.contents
  committed := by
    rw [List.length_append]
    exact h.length
  text := by
    rw [Editor.commit, h.text, List.append_assoc]
  consumed := h.consumed

theorem Refines.commits_iff (c : UInt8) :
    i.commits c = true ↔ c = newline ∨ c = ctrlD ∨ ed.full := by
  have atEnd : i.e = (i.r + inputBuf) % 2 ^ 32 ↔ ed.full := by
    have ring := Lib.Ring.full_iff h.ok
    have room := h.ok.room
    rw [count_eq_sub] at ring room
    rw [h.full_iff]
    refine ring.trans ?_
    show sub i.e i.r = inputBuf ↔ _
    have bound : sub i.e i.r ≤ inputBuf := room
    omega
  rw [Input.commits, decide_eq_true_iff, atEnd]

/-- A key code does to the buffer what it does to the reference. -/
theorem Refines.key (c : UInt8) :
    ∃ pending, Refines (i.key c).1 taken (ed.key c) pending := by
  unfold Input.key Editor.key
  by_cases listing : c = ctrlP
  · rw [if_pos listing, if_pos listing]
    exact ⟨pending, h⟩
  by_cases kill : c = ctrlU
  · rw [if_neg listing, if_neg listing, if_pos kill, if_pos kill]
    exact ⟨pending, h.killFrom h.uncommitted.symm⟩
  by_cases back : c = ctrlH ∨ c = del
  · rw [if_neg listing, if_neg listing, if_neg kill, if_neg kill, if_pos back, if_pos back]
    exact ⟨pending, h.backspace⟩
  rw [if_neg listing, if_neg listing, if_neg kill, if_neg kill, if_neg back, if_neg back]
  by_cases accepted : c ≠ 0 ∧ sub i.e i.r < inputBuf
  · have typed : ¬ (c = 0 ∨ ed.full) := by
      rw [h.full_iff]
      exact fun refused => refused.elim accepted.1 fun full => full accepted.2
    have longer := h.append accepted.2 (Console.translate c)
    rw [if_pos accepted, if_neg typed]
    by_cases commits : (i.append (Console.translate c)).commits (Console.translate c) = true
    · rw [if_pos commits, if_pos ((longer.commits_iff _).mp commits)]
      exact ⟨_, longer.commit⟩
    · rw [if_neg commits, if_neg (mt (longer.commits_iff _).mpr commits)]
      exact ⟨pending, longer⟩
  · have refused : c = 0 ∨ ed.full := by
      rw [h.full_iff]
      by_cases nul : c = 0
      · exact Or.inl nul
      · exact Or.inr fun room => accepted ⟨nul, room⟩
    rw [if_neg accepted, if_pos refused]
    exact ⟨pending, h⟩

/-- Consuming the character at `r`. -/
theorem Refines.consume (some : i.r ≠ i.w) :
    ∃ pending, Refines { i with r := (i.r + 1) % 2 ^ 32 }
      (taken ++ [i.buf (i.r % inputBuf)]) { ed with consumed := ed.consumed + 1 } pending := by
  have nonempty : pending ≠ [] := fun nil => some (h.pending_nil_iff.mpr nil)
  obtain ⟨first, rest, rfl⟩ := List.exists_cons_of_ne_nil nonempty
  have elements : 0 < (ring i).count geometry := by
    rw [count_eq_sub, h.length, List.length_cons]
    omega
  have split := pop_contents h.ok elements
  rw [h.contents, List.cons_append] at split
  obtain ⟨head, tail⟩ := List.cons.inj split
  have readSmall : i.r < 2 ^ 32 := h.ok.read
  have committed := h.committed
  refine ⟨rest, pop_ok h.ok elements, h.range, tail.symm, ?_, ?_, ?_⟩
  · rw [List.length_cons] at committed
    show sub i.w ((i.r + 1) % 2 ^ 32) = rest.length
    unfold sub at *
    omega
  · rw [h.text, head, List.append_assoc, List.singleton_append]
    rfl
  · rw [h.consumed, List.length_append, List.length_singleton]

end Step

/-! Every reachable state. -/

/-- The place between `input.r++` and the decision whether the character is put back. -/
def Pc.inHand : Pc → Bool
  | .have_ _ _ _ => true
  | _ => false

/-- The holder of the lock has a character in its hand. -/
def State.inHand (s : State) : Bool :=
  match s.lock with
  | some (.reader p) => Pc.inHand (s.pc p)
  | _ => false

/-- The buffer with a character in the hand counted as not read yet. -/
def settled (s : State) : Input := if State.inHand s then { s.input with r := sub s.input.r 1 } else s.input

structure Faithful (s : State) : Prop where
  owner : Owner s
  range : s.input.r < 2 ^ 32
  refines : ∃ pending, Refines (settled s) (consumed s.events) (edited s.events) pending
  hand : ∀ p n target c, s.pc p = .have_ n target c →
    c = s.input.buf (sub s.input.r 1 % inputBuf) ∧ sub s.input.r 1 ≠ s.input.w

variable {s : State}

theorem settled_inHand {p : Pid} {n target : Nat} {c : UInt8} (owner : Owner s)
    (place : s.pc p = .have_ n target c) : settled s = { s.input with r := sub s.input.r 1 } := by
  have lock := owner p (by rw [place]; rfl)
  have inHand : State.inHand s = true := by
    rw [State.inHand, lock]
    dsimp only
    rw [place]
    rfl
  rw [settled, if_pos inHand]

theorem settled_empty (empty : ∀ p, s.lock = some (.reader p) → Pc.inHand (s.pc p) = false) :
    settled s = s.input := by
  have inHand : State.inHand s = false := by
    unfold State.inHand
    split
    · rename_i p lock
      exact empty p lock
    · rfl
  rw [settled, inHand]
  rfl

/-- A character that is still to be read keeps `r` and `e` apart. -/
theorem Refines.read_ne_edit {i : Input} {taken pending : List UInt8} {ed : Editor}
    (h : Refines i taken ed pending) (some : i.r ≠ i.w) : i.r ≠ i.e := by
  intro same
  have length := h.length
  have readSmall : i.r < 2 ^ 32 := h.ok.read
  have zero : sub i.e i.r = 0 := by
    rw [same]
    unfold sub
    omega
  have nil : pending = [] := List.length_eq_zero_iff.mp (by omega)
  exact some (h.pending_nil_iff.mpr nil)

/-- Having a character in the hand does not upset the order: it was before `w`. -/
theorem ordered_inHand {i : Input} {taken pending : List UInt8} {ed : Editor} (small : i.r < 2 ^ 32)
    (h : Refines { i with r := sub i.r 1 } taken ed pending) (apart : sub i.r 1 ≠ i.w) : Ordered i := by
  have w := sub_sub_one h.range small apart
  have e := sub_sub_one h.ok.write small (h.read_ne_edit apart)
  have ordered := h.ordered
  unfold Ordered at ordered ⊢
  change sub i.e i.r + 1 = sub i.e (sub i.r 1) at e
  dsimp only at ordered w
  omega

theorem Faithful.ordered (faithful : Faithful s) : Ordered s.input := by
  obtain ⟨pending, refines⟩ := faithful.refines
  by_cases inHand : ∃ p n target c, s.pc p = .have_ n target c
  · obtain ⟨p, n, target, c, place⟩ := inHand
    rw [settled_inHand faithful.owner place] at refines
    exact ordered_inHand faithful.range refines (faithful.hand p n target c place).2
  · have empty : ∀ p, s.lock = some (.reader p) → Pc.inHand (s.pc p) = false := by
      intro p _
      cases place : s.pc p with
      | have_ n target c => exact absurd ⟨p, n, target, c, place⟩ inHand
      | idle | start | loop | asleep | done => rfl
    rw [settled_empty empty] at refines
    exact refines.ordered

theorem edited_append (events : List Event) (event : Event) :
    edited (events ++ [event]) = (edited events).event event := by
  rw [edited, List.foldl_append]
  rfl

theorem consumed_key (events : List Event) (c : UInt8) :
    consumed (events ++ [.key c]) = consumed events := by
  simp [consumed, Event.character]

theorem consumed_consume (events : List Event) (p : Pid) (c : UInt8) :
    consumed (events ++ [.consume p c]) = consumed events ++ [c] := by
  simp [consumed, Event.character]

section Piece
variable {s t : State} {p : Pid}

/-- While `p` has the lock, or nobody does, no other process has a character in its hand. -/
theorem others_empty {q : Pid} (owner : Owner s) (mine : s.lock = none ∨ s.lock = some (.reader p))
    (other : q ≠ p) : Pc.inHand (s.pc q) = false := by
  cases place : s.pc q with
  | have_ n target c =>
    have holder := owner q (by rw [place]; rfl)
    exact absurd holder (not_held mine fun same => other (Holder.reader.inj same))
  | idle | start | loop | asleep | done => rfl

theorem settled_before (owner : Owner s) (mine : s.lock = none ∨ s.lock = some (.reader p))
    (empty : Pc.inHand (s.pc p) = false) : settled s = s.input := by
  refine settled_empty fun q _ => ?_
  by_cases here : q = p
  · rw [here, empty]
  · exact others_empty owner mine here

theorem settled_after (owner : Owner s) (mine : s.lock = none ∨ s.lock = some (.reader p))
    (moves : Moves s p t) (empty : Pc.inHand (t.pc p) = false) : settled t = t.input := by
  refine settled_empty fun q _ => ?_
  by_cases here : q = p
  · rw [here, empty]
  · rw [moves.others q here]
    exact others_empty owner mine here

/-- After a piece of `p`, only `p` can have a character in its hand. -/
theorem Faithful.after (faithful : Faithful s) (mine : s.lock = none ∨ s.lock = some (.reader p))
    (moves : Moves s p t) (range : t.input.r < 2 ^ 32)
    (refines : ∃ pending, Refines (settled t) (consumed t.events) (edited t.events) pending)
    (hand : ∀ n target c, t.pc p = .have_ n target c →
      c = t.input.buf (sub t.input.r 1 % inputBuf) ∧ sub t.input.r 1 ≠ t.input.w) : Faithful t where
  owner := moves.owner faithful.owner
  range := range
  refines := refines
  hand := by
    intro q n target c place
    by_cases here : q = p
    · subst here
      exact hand n target c place
    · have empty := others_empty faithful.owner mine here
      rw [← moves.others q here, place] at empty
      cases empty

/-- A piece that leaves the buffer alone. -/
theorem Faithful.quiet (faithful : Faithful s) (mine : s.lock = none ∨ s.lock = some (.reader p))
    (moves : Moves s p t) (before : Pc.inHand (s.pc p) = false) (after : Pc.inHand (t.pc p) = false)
    (input : t.input = s.input) (events : t.events = s.events) : Faithful t := by
  refine faithful.after mine moves (input ▸ faithful.range) ?_ ?_
  · rw [settled_after faithful.owner mine moves after, input, events,
      ← settled_before faithful.owner mine before]
    exact faithful.refines
  · intro n target c place
    rw [place] at after
    cases after

theorem faithful_piece (faithful : Faithful s) (piece : Piece s p t) : Faithful t := by
  have owner := faithful.owner
  have moves := piece.moves owner
  have mine : ∀ {pc : Pc}, s.pc p = pc → pc.locked = true → s.lock = none ∨ s.lock = some (.reader p) :=
    fun place locked => Or.inr (owner p (by rw [place, locked]))
  cases piece with
  | lock n target out free =>
    refine faithful.quiet (Or.inl free) moves ?_ (congrArg Pc.inHand (goto_pc_same s p _)) rfl rfl
    cases place : s.pc p with
    | have_ => simp [place, Pc.locked] at out
    | idle | start | loop | asleep | done => rfl
  | enough target place =>
    exact faithful.quiet (mine place rfl) moves (by rw [place]; rfl)
      (congrArg Pc.inHand (goto_pc_same s p _)) rfl rfl
  | sleep n target place =>
    exact faithful.quiet (mine place rfl) moves (by rw [place]; rfl)
      (congrArg Pc.inHand (goto_pc_same s p (.asleep n target))) rfl rfl
  | refuse n target place | leave n target place =>
    exact faithful.quiet (mine place rfl) moves (by rw [place]; rfl)
      (congrArg Pc.inHand (goto_pc_same s p .idle)) rfl rfl
  | fetch n target place some =>
    have back := sub_next faithful.range
    have here : (s.fetch p n target).pc p = .have_ n target (s.input.buf (s.input.r % inputBuf)) := by
      rw [State.fetch, setR_pc, goto_pc_same]
    refine faithful.after (mine place rfl) moves (Nat.mod_lt _ (by decide)) ?_ ?_
    · have settledEq : settled (s.fetch p n target) = s.input := by
        rw [settled_inHand (moves.owner owner) here]
        show { s.input with r := sub ((s.input.r + 1) % 2 ^ 32) 1 } = s.input
        rw [back]
      rw [settledEq, ← settled_before owner (mine place rfl) (by rw [place]; rfl)]
      exact faithful.refines
    · intro n' target' c' place'
      rw [here] at place'
      obtain ⟨-, -, rfl⟩ := Pc.have_.inj place'
      show s.input.buf (s.input.r % inputBuf) =
        s.input.buf (sub ((s.input.r + 1) % 2 ^ 32) 1 % inputBuf) ∧
        sub ((s.input.r + 1) % 2 ^ 32) 1 ≠ s.input.w
      rw [back]
      exact ⟨rfl, some⟩
  | putBack n target place =>
    have there : (s.putBack p n target).pc p = .done n target := by
      rw [State.putBack, setR_pc, goto_pc_same]
    refine faithful.after (mine place rfl) moves (sub_lt _ _) ?_ ?_
    · rw [settled_after owner (mine place rfl) moves (by rw [there]; rfl)]
      have refines := faithful.refines
      rw [settled_inHand owner place] at refines
      rw [State.putBack, setR_input, setR_events, goto_input, goto_events]
      exact refines
    · intro n' target' c' place'
      rw [there] at place'
      cases place'
  | consume n target c place after keeps plain =>
    have there : ((s.consume p c).goto p after).pc p = after := goto_pc_same _ p after
    have empty : Pc.inHand after = false := by
      cases after with
      | have_ n target c => exact absurd rfl (plain n target c)
      | idle | start | loop | asleep | done => rfl
    refine faithful.after (mine place rfl) moves faithful.range ?_ ?_
    · rw [settled_after owner (mine place rfl) moves (by rw [there, empty])]
      obtain ⟨inHand, apart⟩ := faithful.hand p n target c place
      obtain ⟨pending, refines⟩ := faithful.refines
      rw [settled_inHand owner place] at refines
      have read := refines.consume apart
      rw [next_sub faithful.range, ← inHand] at read
      show ∃ pending, Refines s.input (consumed (s.events ++ [.consume p c]))
        (edited (s.events ++ [.consume p c])) pending
      rw [consumed_consume, edited_append]
      exact read
    · intro n' target' c' place'
      rw [there] at place'
      exact absurd place' (plain n' target' c')

end Piece

/-- Nobody has a character in its hand while the lock is free or the handler's. -/
theorem settled_no_reader (lock : ∀ p, s.lock ≠ some (.reader p)) :
    settled s = s.input :=
  settled_empty fun p holder => absurd holder (lock p)

theorem faithful_outside {t : State} (faithful : Faithful s) (outside : Outside s t) :
    Faithful t := by
  have owner := outside.owner faithful.owner
  cases outside with
  | intr free =>
    refine ⟨owner, faithful.range, ?_, faithful.hand⟩
    have refines := faithful.refines
    rw [settled_no_reader (by simp [free])] at refines
    rw [settled_no_reader (by simp)]
    exact refines
  | key c holder =>
    have lock : ∀ p, s.lock ≠ some (.reader p) := by simp [holder]
    obtain ⟨pending, refines⟩ := faithful.refines
    rw [settled_no_reader lock] at refines
    obtain ⟨pending', handled⟩ := refines.key c
    refine ⟨owner, handled.ok.read, ⟨pending', ?_⟩, ?_⟩
    · rw [settled_no_reader (s := handle s c) lock]
      show Refines (s.input.key c).1 (consumed (s.events ++ [.key c])) (edited (s.events ++ [.key c])) pending'
      rw [consumed_key, edited_append]
      exact handled
    · intro p n target c' place
      exact absurd (owner p (by rw [place]; rfl)) (lock p)
  | intrDone holder =>
    refine ⟨owner, faithful.range, ?_, faithful.hand⟩
    have refines := faithful.refines
    rw [settled_no_reader (by simp [holder])] at refines
    rw [settled_no_reader (by simp)]
    exact refines
  | read p n idle =>
    have hands : ∀ q, Pc.inHand ((s.goto p (.start n)).pc q) = Pc.inHand (s.pc q) := by
      intro q
      by_cases here : q = p
      · rw [here, goto_pc_same, idle]
        rfl
      · rw [goto_pc_other s _ here]
    refine ⟨owner, faithful.range, ?_, ?_⟩
    · have same : settled (s.goto p (.start n)) = settled s := by
        have inHand : State.inHand (s.goto p (.start n)) = State.inHand s := by
          unfold State.inHand
          simp only [hands]
          rfl
        unfold settled
        rw [inHand]
        rfl
      rw [same]
      exact faithful.refines
    · intro q n' target c place
      by_cases here : q = p
      · rw [here, goto_pc_same] at place
        cases place
      · rw [goto_pc_other s _ here] at place
        exact faithful.hand q n' target c place
  | kill killed sleeping => exact ⟨owner, faithful.range, faithful.refines, faithful.hand⟩

theorem faithful_step {t : State} {act : Act} (faithful : Faithful s) (step : Step s act t) :
    Faithful t := by
  rcases step_cases step with outside | ⟨p, piece⟩
  · exact faithful_outside faithful outside
  · exact faithful_piece faithful piece

theorem faithful_quiet (buf : Nat → UInt8) (start : BitVec 32) : Faithful (quiet buf start) where
  owner := by
    intro p locked
    cases locked
  range := start.isLt
  refines := by
    have small := start.isLt
    have zero : sub start.toNat start.toNat = 0 := by
      unfold sub
      omega
    have count : (ring (quiet buf start).input).count geometry = 0 := zero
    refine ⟨[], ⟨small, small, ?_⟩, small, ?_, zero, rfl, rfl⟩
    · show (ring (quiet buf start).input).count geometry ≤ geometry.c
      rw [count]
      exact Nat.zero_le _
    · exact contents_eq_nil.mpr count
  hand := by
    intro p n target c place
    cases place

/-- Whatever is typed and whoever reads, wherever the counters started: they stay in order, and
what readers consumed is a prefix of what the reference editor committed. -/
theorem console_input_faithful (buf : Nat → UInt8) (start : BitVec 32) {acts : List Act} {s : State}
    (run : Run Step (quiet buf start) acts s) :
    Ordered s.input ∧ consumed s.events <+: (edited s.events).committed := by
  have faithful : Faithful s :=
    run.preserves Faithful (fun _ _ _ => faithful_step) (faithful_quiet buf start)
  obtain ⟨pending, refines⟩ := faithful.refines
  exact ⟨faithful.ordered, pending, refines.text.symm⟩

/-- "ax", backspace, return, ^D, read by two calls with the counters at the wrap. -/
theorem console_input_faithful_example :
    ∃ s, Run Step (quiet (fun _ => 0) (-1)) [.read 1 10, .intr, .key 97, .key 120, .key 8, .key 13,
        .key 4, .intrDone, .run 1, .run 1, .run 1, .run 1, .run 1, .run 1, .read 1 5, .run 1, .run 1,
        .run 1] s ∧
      consumed s.events = [97, 10, 4] ∧
      Ordered s.input ∧ consumed s.events <+: (edited s.events).committed := by
  obtain ⟨s, run, test⟩ := execute_exists next (quiet (fun _ => 0) (-1))
    [.read 1 10, .intr, .key 97, .key 120, .key 8, .key 13, .key 4, .intrDone, .run 1, .run 1,
      .run 1, .run 1, .run 1, .run 1, .read 1 5, .run 1, .run 1, .run 1]
    (fun s => consumed s.events = [97, 10, 4]) (by decide +kernel)
  exact ⟨s, run, of_decide_eq_true test, console_input_faithful _ _ run⟩

end ColorXv6.Dev.LineEditor
