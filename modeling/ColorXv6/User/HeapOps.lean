import ColorXv6.User.FreeList

/-!
`free` and `malloc` on the row of blocks that the heap holds. `free` turns a used
block into a free one and joins it with its free neighbours; `malloc` takes a free
block or its upper end, after growing the row if it has to. Their loops come to an
end in every heap that holds a row.
-/
namespace ColorXv6.User.HeapOps
open Lib.Cycle Lib.Row Malloc FreeList

variable {a turns : Nat}

theorem plus_eq {k : Nat}
    (small : a + 8 * k < 2 ^ 32) : plus a k = a + 8 * k := Nat.mod_eq_of_lt small

theorem minusOne_eq (small : a + 8 < 2 ^ 32) : minusOne (a + 8) = a := by
  unfold minusOne
  omega

@[simp] theorem write_same (h : Heap) (a : Nat) (header : Header) : (h.write a header).mem a = header :=
  Function.update_self ..

theorem write_other (h : Heap) {x : Nat} (header : Header) (other : x ≠ a) :
    (h.write a header).mem x = h.mem x :=
  Function.update_of_ne other ..

/-! `free`. -/

section Free
variable {h t : Heap} {l r : List Block} {n bp p : Nat} {before : List Nat}

/-- The first free address above a block is not its end, unless the next block is free. -/
theorem entry_ne (low : h.base < a) (positive : ∀ b ∈ r, 0 < b.units)
    (used : ∀ y ∈ r.head?, y.used = true) : a ≠ entry h a r := by
  unfold entry
  cases r with
  | nil =>
    show a ≠ h.base
    omega
  | cons b rest =>
    have some := positive b (by simp)
    rw [frees_cons, if_pos (used b (by simp))]
    cases found : frees (a + b.bytes) rest with
    | nil =>
      show a ≠ h.base
      omega
    | cons x later =>
      have above : a + b.bytes ≤ x := frees_low (by rw [found]; simp)
      dsimp only [Block.bytes] at above
      show a ≠ x
      omega

theorem entry_free : entry h a (⟨n, false⟩ :: r) = a := by
  rw [entry, frees_cons]
  rfl

theorem entry_used : entry h a (⟨n, true⟩ :: r) = entry h (a + 8 * n) r := by
  rw [entry, frees_cons]
  rfl

/-- A free block points to the next one. -/
theorem Upper.follows (upper : Upper h p (⟨n, false⟩ :: r)) : (h.mem p).ptr = entry h (p + 8 * n) r := by
  have linked := upper.linked
  rw [frees_cons] at linked
  exact linked.1

/-- The block above is joined when it is free. -/
theorem joinUpper_spec (upper : Upper h bp (⟨n, true⟩ :: r)) (low : h.base < bp)
    (high : bp + 8 * n + width Block.bytes r < 2 ^ 32)
    (next : (h.mem p).ptr = entry h (bp + 8 * n) r) :
    ∃ m rest, joinUpper h bp p = h.write bp { ptr := entry h (bp + 8 * m) rest, size := m } ∧
      n ≤ m ∧ 8 * m + width Block.bytes rest = 8 * n + width Block.bytes r ∧
      Upper h (bp + 8 * m) rest ∧ (∀ y ∈ rest.head?, y.used = true) ∧
      useds (bp + 8 * m) rest = useds (bp + 8 * n) r := by
  have size : (h.mem bp).size = n := upper.sizes (bp, ⟨n, true⟩) (by simp)
  have above : Upper h (bp + 8 * n) r := upper.tail
  have top : plus bp n = bp + 8 * n := plus_eq (by omega)
  unfold joinUpper
  dsimp only
  rw [size, top, next]
  by_cases used : ∀ y ∈ r.head?, y.used = true
  · refine ⟨n, r, ?_, Nat.le_refl n, rfl, above, used, rfl⟩
    rw [if_neg (entry_ne (by omega) above.positive used)]
  · -- the first block of the upper part is free, and the one after it is not
    cases r with
    | nil => simp at used
    | cons b rest =>
      obtain ⟨k, free⟩ := b
      obtain rfl : free = false := by simpa using used
      have rest_ : Upper h (bp + 8 * n + 8 * k) rest := above.tail
      have upperSize : (h.mem (bp + 8 * n)).size = k := above.sizes (bp + 8 * n, ⟨k, false⟩) (by simp)
      have follows := Upper.follows above
      have after : ∀ y ∈ rest.head?, y.used = true := by
        intro y next
        have chain := (List.isChain_cons.mp above.merged).1 y next
        simpa using chain
      rw [width_cons] at high
      dsimp only [Block.bytes] at high
      rw [show bp + 8 * n + 8 * k = bp + 8 * (n + k) by omega] at rest_ follows
      refine ⟨n + k, rest, ?_, Nat.le_add_right n k, ?_, rest_, after, ?_⟩
      · rw [entry_free, if_pos rfl, upperSize, follows, Nat.mod_eq_of_lt (by omega)]
      · rw [width_cons]
        dsimp only [Block.bytes]
        omega
      · rw [useds_cons]
        show useds (bp + 8 * (n + k)) rest = useds (bp + 8 * n + 8 * k) rest
        rw [show bp + 8 * n + 8 * k = bp + 8 * (n + k) by omega]

theorem Holds.bounds (holds : Holds h (l ++ ⟨n, true⟩ :: r)) :
    0 < n ∧ h.start + width Block.bytes l + 8 * n + width Block.bytes r = h.brk := by
  have brk := holds.brk
  rw [width_append, width_cons] at brk
  dsimp only [Block.bytes] at brk
  exact ⟨holds.positive ⟨n, true⟩ (by simp), by omega⟩

/-- Where a used block stands in the list. -/
theorem Holds.around (holds : Holds h (l ++ ⟨n, true⟩ :: r))
    (at_ : bp = h.start + width Block.bytes l) (ends : h.base :: frees h.start l = before ++ [p]) :
    Around h bp before p (frees (bp + 8 * n) r) := by
  have nodes : h.base :: frees h.start (l ++ ⟨n, true⟩ :: r) = before ++ p :: frees (bp + 8 * n) r := by
    rw [frees_append, frees_cons, if_pos rfl, ← List.cons_append, ends, at_]
    simp [Block.bytes]
  have low := holds.low
  have bounds := Holds.bounds holds
  have sorted : (h.base :: frees h.start (l ++ ⟨n, true⟩ :: r)).Pairwise (· < ·) := by
    refine List.Pairwise.cons ?_ (frees_sorted holds.positive)
    intro x member
    have := frees_low member
    omega
  refine ⟨nodes ▸ holds.linked, nodes ▸ sorted, by rw [← ends]; rfl, ?_, ?_⟩
  · intro x member
    rw [← ends] at member
    rw [at_]
    exact holds.lower.node_below low.2 member
  · intro x member
    have := frees_low member
    omega

/-- Only headers and `freep` are written. -/
structure Rewritten (h t : Heap) : Prop where
  base : t.base = h.base
  start : t.start = h.start
  brk : t.brk = h.brk

/-- The part of the row above `l` is laid out anew. -/
theorem Holds.rejoin {u : List Block} (holds : Holds h (l ++ r)) (same : Rewritten h t)
    (at_ : a = h.start + width Block.bytes l) (lower : Lower t l (entry t a u)) (upper : Upper t a u)
    (between : ∀ x ∈ l.getLast?, ∀ y ∈ u.head?, x.used = true ∨ y.used = true)
    (freep : t.freep ∈ h.base :: frees h.start (l ++ u))
    (total : width Block.bytes u = width Block.bytes r) : Holds t (l ++ u) := by
  refine lower.join upper (by rw [same.start, at_]) between ?_ ?_ ?_ ?_
  · rw [same.base, same.start]
    exact freep
  · rw [same.brk, holds.brk, width_append, total, at_, Nat.add_assoc]
  · rw [same.base, same.start]
    exact holds.low
  · rw [same.brk]
    exact holds.high

/-- What `free` leaves behind, where the row was `l`, a used block of `n` units at `bp`, and `r`. -/
structure Freed (h : Heap) (l r : List Block) (n bp : Nat) (t : Heap) (row : List Block) : Prop
    extends Rewritten h t where
  holds : Holds t row
  useds : useds h.start row = useds h.start l ++ useds (bp + 8 * n) r
  /-- a free block as big as the one freed -/
  room : ∃ x ∈ frees h.start row, n ≤ (t.mem x).size

/-- What is above the freed block once it is joined with its upper neighbour. -/
structure Above (h : Heap) (r : List Block) (n bp m : Nat) (rest : List Block) : Prop where
  more : n ≤ m
  total : 8 * m + width Block.bytes rest = 8 * n + width Block.bytes r
  upper : Upper h (bp + 8 * m) rest
  used : ∀ y ∈ rest.head?, y.used = true
  useds : FreeList.useds (bp + 8 * m) rest = FreeList.useds (bp + 8 * n) r

/-- The block below is free, and takes in the one that is freed. -/
theorem freed_joined {k m : Nat} {rest : List Block}
    (holds : Holds h (l ++ ⟨k, false⟩ :: ⟨n, true⟩ :: r))
    (at_ : p = h.start + width Block.bytes l) (next : bp = p + 8 * k) (above : Above h r n bp m rest)
    (same : Rewritten h t) (freep : t.freep = p)
    (here : t.mem p = { ptr := entry h (bp + 8 * m) rest, size := k + m })
    (others : ∀ x, x ≠ p → x ≠ bp → t.mem x = h.mem x) :
    Freed h (l ++ [⟨k, false⟩]) r n bp t (l ++ ⟨k + m, false⟩ :: rest) := by
  have low := holds.low
  have positive : 0 < k := holds.positive ⟨k, false⟩ (by simp)
  have positive' : 0 < n := holds.positive ⟨n, true⟩ (by simp)
  have more := above.more
  have total := above.total
  have lower : Lower t l p := by
    have lower := holds.lower
    rw [entry_free, ← at_] at lower
    exact lower.frame low.2 same.base same.start fun x below => others x (by omega) (by omega)
  have end_ : p + Block.bytes ⟨k + m, false⟩ = bp + 8 * m := by
    dsimp only [Block.bytes]
    omega
  have upper : Upper t p (⟨k + m, false⟩ :: rest) := by
    refine Upper.cons ?_ (Nat.add_pos_left positive m) (by rw [here]) fun _ => ?_
    · rw [end_]
      exact above.upper.frame same.base fun x high => others x (by omega) (by omega)
    · rw [end_, here, entry_congr same.base]
      exact ⟨rfl, above.used⟩
  have node : p ∈ frees h.start (l ++ ⟨k + m, false⟩ :: rest) := by
    rw [frees_append, ← at_, frees_cons]
    simp
  refine ⟨same, Holds.rejoin holds same at_ (by rwa [entry_free]) upper ?_ ?_ ?_, ?_, p, node, ?_⟩
  · -- the block below `p` is used, as `p` was free before
    intro x last y head
    have chain := (List.isChain_append.mp holds.merged).2.2 x last ⟨k, false⟩ (by simp)
    exact Or.inl (chain.resolve_right (by simp))
  · rw [freep]
    exact List.mem_cons_of_mem _ node
  · simp only [width_cons, Block.bytes]
    omega
  · rw [useds_append, useds_append, useds_cons, useds_cons, ← at_, end_, above.useds]
    simp [FreeList.useds]
  · rw [here]
    exact Nat.le_add_left_of_le more

/-- The block below is used, or there is none: the list leads through the freed block. -/
theorem freed_linked {m : Nat} {rest : List Block} (holds : Holds h (l ++ ⟨n, true⟩ :: r))
    (at_ : bp = h.start + width Block.bytes l) (ends : h.base :: frees h.start l = before ++ [p])
    (used : ∀ x ∈ l.getLast?, x.used = true) (above : Above h r n bp m rest)
    (same : Rewritten h t) (freep : t.freep = p) (last : t.mem p = { h.mem p with ptr := bp })
    (here : t.mem bp = { ptr := entry h (bp + 8 * m) rest, size := m })
    (others : ∀ x, x ≠ p → x ≠ bp → t.mem x = h.mem x) :
    Freed h l r n bp t (l ++ ⟨m, false⟩ :: rest) := by
  have low := holds.low
  have bounds := Holds.bounds holds
  have more := above.more
  have total := above.total
  have before_ : p < bp := by
    rw [at_]
    exact holds.lower.node_below low.2 (by simp [ends])
  have lower : Lower t l bp := holds.lower.redirect low.2 ends same.base same.start last
    fun x below apart => others x apart (by omega)
  have upper : Upper t bp (⟨m, false⟩ :: rest) := by
    refine Upper.cons ?_ (Nat.lt_of_lt_of_le bounds.1 more) (by rw [here]) fun _ => ?_
    · exact above.upper.frame same.base fun x high => others x (by omega) (by omega)
    · rw [here, entry_congr same.base]
      exact ⟨rfl, above.used⟩
  refine ⟨same, Holds.rejoin holds same at_ (by rwa [entry_free]) upper ?_ ?_ ?_, ?_, bp, ?_, ?_⟩
  · exact fun x last y _ => Or.inl (used x last)
  · rw [freep, frees_append, ← List.cons_append, ends]
    simp
  · simp only [width_cons, Block.bytes]
    omega
  · rw [useds_append, useds_cons, ← at_, ← above.useds]
    rfl
  · rw [frees_append, ← at_, frees_cons]
    simp
  · rw [here]
    exact more

/-- The last node below is not adjacent, unless the block below is free. -/
theorem lower_apart {exit : Nat} (lower : Lower h l exit) (low : h.base + 8 ≤ h.start)
    (used : ∀ x ∈ l.getLast?, x.used = true) (node : p ∈ h.base :: frees h.start l) :
    p + 8 * (h.mem p).size < h.start + width Block.bytes l := by
  rcases List.mem_cons.mp node with rfl | free
  · rw [lower.baseSize]
    omega
  · obtain ⟨b, placed, unused⟩ := mem_frees.mp free
    have size : (h.mem p).size = b.units := lower.sizes _ placed
    rcases List.eq_nil_or_concat l with rfl | ⟨l', c, rfl⟩
    · cases placed
    · have positive : 0 < c.units := lower.positive c (by simp)
      have isUsed : c.used = true := used c (by simp)
      rw [List.concat_eq_append, place_append, List.mem_append] at placed
      rw [List.concat_eq_append, width_append, width_cons]
      rcases placed with earlier | last
      · have high := (mem_place earlier).2.2
        dsimp only [Block.bytes] at high ⊢
        omega
      · have same : b = c := by simpa using congrArg Prod.snd (List.mem_singleton.mp last)
        rw [same, isUsed] at unused
        cases unused

/-- `free` comes to an end, and has turned the block into a free one. -/
theorem free_spec (holds : Holds h (l ++ ⟨n, true⟩ :: r)) (at_ : bp = h.start + width Block.bytes l) :
    ∃ turns t row, free turns h (bp + 8) = some t ∧ Freed h l r n bp t row := by
  have low := holds.low
  have high := holds.high
  have bounds := Holds.bounds holds
  obtain ⟨before, p, ends⟩ : ∃ before p, h.base :: frees h.start l = before ++ [p] := by
    rcases List.eq_nil_or_concat (h.base :: frees h.start l) with nil | ⟨before, p, ends⟩
    · cases nil
    · exact ⟨before, p, by rw [ends, List.concat_eq_append]⟩
  have around := Holds.around holds at_ ends
  obtain ⟨turns, found⟩ := around.find (q := h.freep) (by
    have freep := holds.freep
    rw [frees_append, frees_cons, if_pos rfl, ← List.cons_append, ends, ← at_] at freep
    simpa [Block.bytes] using freep)
  have node : p ∈ h.base :: frees h.start l := by simp [ends]
  have below : p < bp := around.below p (by simp)
  have next : (h.mem p).ptr = entry h (bp + 8 * n) r := around.linked.next_eq
  have upper := holds.upper
  rw [← at_] at upper
  obtain ⟨m, rest, joined, more, total, above, used, useds⟩ :=
    joinUpper_spec upper (by omega) (by omega) next
  have above : Above h r n bp m rest := ⟨more, total, above, used, useds⟩
  have result : free turns h (bp + 8) =
      some { joinLower (h.write bp { ptr := entry h (bp + 8 * m) rest, size := m }) bp p with freep := p } := by
    unfold free
    dsimp only
    rw [minusOne_eq (by omega), found, Option.map_some, joined]
  have kept : ∀ header, (h.write bp header).mem p = h.mem p := fun header => write_other h header (by omega)
  unfold joinLower at result
  rw [kept, write_same] at result
  by_cases lowerUsed : ∀ x ∈ l.getLast?, x.used = true
  · have apart := lower_apart holds.lower low.2 lowerUsed node
    rw [if_neg (by rw [plus_eq (by omega)]; omega)] at result
    refine ⟨turns, _, _, result, freed_linked holds at_ ends lowerUsed above ⟨rfl, rfl, rfl⟩ rfl
      (write_same _ _ _) ?_ ?_⟩
    · exact (write_other _ _ (by omega)).trans (write_same _ _ _)
    · exact fun x apart apart' => (write_other _ _ apart).trans (write_other _ _ apart')
  · -- the last block below is free, and its node is the one that was found
    obtain ⟨l', k, rfl⟩ : ∃ l' k, l = l' ++ [⟨k, false⟩] := by
      rcases List.eq_nil_or_concat l with rfl | ⟨l', ⟨k, free⟩, rfl⟩
      · simp at lowerUsed
      · refine ⟨l', k, ?_⟩
        have unused : free = false := by simpa using lowerUsed
        rw [unused, List.concat_eq_append]
    have there : p = h.start + width Block.bytes l' := by
      rw [frees_append, frees_cons, ← List.cons_append] at ends
      exact (List.cons.inj (List.append_inj' ends rfl).2).1.symm
    have size : (h.mem p).size = k := holds.sizes (p, ⟨k, false⟩) (by simp [place_append, there])
    have top : bp = p + 8 * k := by
      rw [at_, there, width_append, width_cons]
      simp [Block.bytes, Nat.add_assoc]
    have fits : k + m < 2 ^ 32 := by omega
    rw [size, if_pos (by rw [plus_eq (by omega), top]), Nat.mod_eq_of_lt fits] at result
    rw [List.append_assoc, List.singleton_append] at holds
    refine ⟨turns, _, _, result, freed_joined holds there top above ⟨rfl, rfl, rfl⟩ rfl
      (write_same _ _ _) ?_⟩
    exact fun x apart apart' => (write_other _ _ apart).trans (write_other _ _ apart')

end Free

/-! `malloc`. -/

section Malloc
variable {h t : Heap} {row l r : List Block} {n m p prevp : Nat} {before : List Nat} {grant : Bool}

/-- What `malloc` leaves behind when it returns a pointer: the row has a new used block of `n`
units, and the other used blocks are as before. -/
structure Taken (h : Heap) (row : List Block) (n ptr : Nat) (t : Heap) (row' : List Block) : Prop where
  holds : Holds t row'
  base : t.base = h.base
  start : t.start = h.start
  useds : ∃ b first last, ptr = b + 8 ∧ useds h.start row = first ++ last ∧
    useds h.start row' = first ++ (b, ⟨n, true⟩) :: last

/-- The whole block. -/
theorem taken_whole (holds : Holds h (l ++ ⟨n, false⟩ :: r)) (at_ : p = h.start + width Block.bytes l)
    (ends : h.base :: frees h.start l = before ++ [prevp]) (same : Rewritten h t)
    (freep : t.freep = prevp) (last : t.mem prevp = { h.mem prevp with ptr := (h.mem p).ptr })
    (others : ∀ x, x ≠ prevp → t.mem x = h.mem x) :
    Taken h (l ++ ⟨n, false⟩ :: r) n (p + 8) t (l ++ ⟨n, true⟩ :: r) := by
  have low := holds.low
  have upper := holds.upper
  rw [← at_] at upper
  have below : prevp < p := by
    rw [at_]
    exact holds.lower.node_below low.2 (by simp [ends])
  have size : (t.mem p).size = n := by
    rw [others p (by omega)]
    exact upper.sizes (p, ⟨n, false⟩) (by simp)
  have newUpper : Upper t p (⟨n, true⟩ :: r) := by
    refine Upper.cons ?_ (upper.positive ⟨n, false⟩ (by simp)) size (by simp)
    refine upper.tail.frame same.base fun x high => others x ?_
    dsimp only [Block.bytes] at high
    omega
  have newLower : Lower t l (entry t p (⟨n, true⟩ :: r)) := by
    rw [entry_used, entry_congr same.base, ← Upper.follows upper]
    exact holds.lower.redirect low.2 ends same.base same.start last fun x _ apart => others x apart
  refine ⟨Holds.rejoin holds same at_ newLower newUpper ?_ ?_ ?_, same.base, same.start,
    p, useds h.start l, useds (p + 8 * n) r, rfl, ?_, ?_⟩
  · intro x _ y first
    right
    cases first
    rfl
  · rw [freep, frees_append, ← List.cons_append, ends]
    simp
  · rw [width_cons, width_cons]
    rfl
  all_goals
    rw [useds_append, useds_cons, ← at_]
    rfl

/-- The upper end of a bigger block. -/
theorem taken_end (holds : Holds h (l ++ ⟨m, false⟩ :: r)) (at_ : p = h.start + width Block.bytes l)
    (nonzero : 0 < n) (smaller : n < m) (node : prevp ∈ h.base :: frees h.start l)
    (same : Rewritten h t) (freep : t.freep = prevp)
    (front : t.mem p = { h.mem p with size := m - n }) (size : (t.mem (p + 8 * (m - n))).size = n)
    (others : ∀ x, x ≠ p → x ≠ p + 8 * (m - n) → t.mem x = h.mem x) :
    Taken h (l ++ ⟨m, false⟩ :: r) n (p + 8 * (m - n) + 8) t (l ++ ⟨m - n, false⟩ :: ⟨n, true⟩ :: r) := by
  have low := holds.low
  have upper := holds.upper
  rw [← at_] at upper
  have end_ : p + 8 * (m - n) + 8 * n = p + 8 * m := by omega
  have tail : Upper t (p + 8 * (m - n)) (⟨n, true⟩ :: r) := by
    refine Upper.cons ?_ nonzero size (by simp)
    rw [show p + 8 * (m - n) + Block.bytes ⟨n, true⟩ = p + 8 * m from end_]
    exact upper.tail.frame same.base fun x high => by
      dsimp only [Block.bytes] at high
      exact others x (by omega) (by omega)
  have newUpper : Upper t p (⟨m - n, false⟩ :: ⟨n, true⟩ :: r) := by
    refine Upper.cons tail (Nat.sub_pos_of_lt smaller) (by rw [front]) fun _ => ⟨?_, by simp⟩
    rw [front, entry_used, entry_congr same.base]
    exact (Upper.follows upper).trans (congrArg (fun a => entry h a r) end_.symm)
  have newLower : Lower t l (entry t p (⟨m - n, false⟩ :: ⟨n, true⟩ :: r)) := by
    have lower := holds.lower
    rw [entry_free, ← at_] at lower
    rw [entry_free]
    exact lower.frame low.2 same.base same.start fun x below => others x (by omega) (by omega)
  refine ⟨Holds.rejoin holds same at_ newLower newUpper ?_ ?_ ?_, same.base, same.start,
    p + 8 * (m - n), useds h.start l, useds (p + 8 * m) r, rfl, ?_, ?_⟩
  · intro x last y first
    cases first
    exact (List.isChain_append.mp holds.merged).2.2 x last ⟨m, false⟩ (by simp)
  · rw [freep, frees_append, ← List.cons_append]
    exact List.mem_append_left _ node
  · simp only [width_cons, Block.bytes]
    omega
  · rw [useds_append, useds_cons, ← at_]
    rfl
  · rw [useds_append, useds_cons, useds_cons, ← at_]
    show _ ++ (_, _) :: useds (p + 8 * (m - n) + 8 * n) r = _
    rw [end_]
    rfl

theorem nodes_sorted (holds : Holds h row) : (h.base :: frees h.start row).Pairwise (· < ·) := by
  refine List.Pairwise.cons ?_ (frees_sorted holds.positive)
  intro x member
  have := frees_low member
  have := holds.low
  omega

/-- A node that another leads to and that is not `base` is a free block, right after it. -/
theorem node_split (holds : Holds h row) (member : prevp ∈ h.base :: frees h.start row)
    (next : Heap.next h prevp = p) (away : p ≠ h.base) :
    ∃ l r m before, row = l ++ ⟨m, false⟩ :: r ∧ p = h.start + width Block.bytes l ∧
      h.base :: frees h.start l = before ++ [prevp] := by
  obtain home | ⟨front, back, nodes⟩ := holds.linked.next_cases member
  · exact absurd (next.symm.trans home) away
  · rw [next] at nodes
    have free : p ∈ frees h.start row := by
      have inside : p ∈ h.base :: frees h.start row := by simp [nodes]
      exact (List.mem_cons.mp inside).resolve_left away
    obtain ⟨⟨m, used⟩, placed, unused⟩ := mem_frees.mp free
    cases unused
    obtain ⟨l, r, rfl, at_⟩ := place_split placed
    refine ⟨l, r, m, front, rfl, at_, ?_⟩
    have distinct := (nodes_sorted holds).imp Nat.ne_of_lt
    rw [frees_append, frees_cons, ← List.cons_append, ← at_] at nodes distinct
    have once := List.pairwise_append.mp distinct
    have same : (h.base :: frees h.start l) ++ p :: frees (p + Block.bytes ⟨m, false⟩) r =
        (front ++ [prevp]) ++ p :: back := by
      rw [List.append_assoc]
      exact nodes
    refine ((List.append_cons_inj_of_notMem ?_ ?_).mp same).1
    · exact fun inside => once.2.2 p inside p (by simp) rfl
    · exact fun inside => List.rel_of_pairwise_cons once.2.1 inside rfl

/-- A block that is big enough is taken, or its end. -/
theorem take_spec (holds : Holds h row) (nonzero : 0 < n) (member : prevp ∈ h.base :: frees h.start row)
    (next : Heap.next h prevp = p) (big : n ≤ (h.mem p).size) :
    ∃ ptr t row', take h n prevp p = (ptr, t) ∧ Taken h row n ptr t row' := by
  have away : p ≠ h.base := by
    rintro rfl
    rw [holds.baseSize] at big
    omega
  obtain ⟨l, r, m, before, rfl, at_, ends⟩ := node_split holds member next away
  have size : (h.mem p).size = m := holds.sizes (p, ⟨m, false⟩) (by simp [place_append, at_])
  have high := holds.high
  have node : prevp ∈ h.base :: frees h.start l := by simp [ends]
  have brk := holds.brk
  rw [width_append, width_cons] at brk
  dsimp only [Block.bytes] at brk
  rw [size] at big
  unfold take
  rw [size]
  by_cases whole : m = n
  · subst whole
    rw [if_pos rfl, plus_eq (by omega)]
    exact ⟨_, _, _, rfl, taken_whole holds at_ ends ⟨rfl, rfl, rfl⟩ rfl (write_same _ _ _)
      fun x apart => write_other _ _ apart⟩
  · have smaller : n < m := by omega
    rw [if_neg whole]
    dsimp only
    rw [plus_eq (a := p) (k := m - n) (by omega), plus_eq (by omega)]
    refine ⟨_, _, _, rfl, taken_end holds at_ nonzero smaller node ⟨rfl, rfl, rfl⟩ rfl ?_ ?_ ?_⟩
    · exact (write_other _ _ (by omega)).trans (write_same _ _ _)
    · exact congrArg Header.size (write_same _ _ _)
    · exact fun x apart apart' => (write_other _ _ apart').trans (write_other _ _ apart)

/-! More turns do not change a result. -/

theorem findPlace_mono {mem : Nat → Header} {bp q result : Nat}
    (found : findPlace mem bp turns q = some result) (extra : Nat) :
    findPlace mem bp (turns + extra) q = some result := by
  induction turns generalizing q with
  | zero => cases found
  | succ turns ih =>
    rw [Nat.succ_add]
    unfold findPlace at found ⊢
    dsimp only at found ⊢
    split at found
    · rename_i here
      rw [if_pos here]
      exact found
    · rename_i further
      rw [if_neg further]
      split at found
      · rename_i here
        rw [if_pos here]
        exact found
      · rename_i further
        rw [if_neg further]
        exact ih found

theorem free_mono {ap : Nat} (freed : free turns h ap = some t) (extra : Nat) :
    free (turns + extra) h ap = some t := by
  obtain ⟨p, found, rfl⟩ := Option.map_eq_some_iff.mp freed
  exact Option.map_eq_some_iff.mpr ⟨p, findPlace_mono found extra, rfl⟩

theorem morecore_mono {nu : Nat} {result : Option Nat × Heap}
    (more : morecore turns h nu grant = some result) (extra : Nat) :
    morecore (turns + extra) h nu grant = some result := by
  unfold morecore at more ⊢
  dsimp only at more ⊢
  split at more
  · exact more
  · obtain ⟨u, freed, rfl⟩ := Option.map_eq_some_iff.mp more
    exact Option.map_eq_some_iff.mpr ⟨u, free_mono freed extra, rfl⟩

theorem search_mono {α : Type} {hand : Nat × Heap → α}
    {more : Nat → Heap → (Heap → Nat → Option α) → Option α} {e : Nat}
    (grows : ∀ {turns h next next' result}, (∀ {t q r}, next t q = some r → next' t q = some r) →
      more turns h next = some result → more (turns + e) h next' = some result)
    {result : α} (found : search n hand more turns h prevp p = some result) :
    search n hand more (turns + e) h prevp p = some result := by
  induction turns generalizing h prevp p result with
  | zero => cases found
  | succ turns ih =>
    rw [Nat.succ_add]
    unfold search at found ⊢
    split at found
    · rename_i big
      rw [if_pos big]
      exact found
    · rename_i small
      rw [if_neg small]
      split at found
      · rename_i around
        rw [if_pos around]
        exact grows ih found
      · rename_i further
        rw [if_neg further]
        exact ih found

theorem refill_mono {next next' : Heap → Nat → Option (Nat × Heap)} {result : Nat × Heap}
    (onward : ∀ {t q r}, next t q = some r → next' t q = some r)
    (found : refill n grant turns h next = some result) :
    refill n grant (turns + extra) h next' = some result := by
  unfold refill at found ⊢
  split at found
  · cases found
  · rename_i u failed
    rw [morecore_mono failed extra]
    exact found
  · rename_i q u grown
    rw [morecore_mono grown extra]
    exact onward found

/-! The loop of `malloc`, along the list. -/

/-- A block that is big enough lies ahead, not behind `freep`. -/
theorem search_finds {ahead : List Nat} (trail : Trail (Heap.next h) prevp ahead)
    (member : prevp ∈ h.base :: frees h.start row) (nodes : ∀ x ∈ ahead, x ∈ h.base :: frees h.start row)
    (stops : ∀ front back, ahead = front ++ h.freep :: back → back = [])
    (big : ∃ x ∈ ahead, n ≤ (h.mem x).size) :
    ∃ turns prev block, (∀ {α : Type} (hand : Nat × Heap → α) more,
        search n hand more turns h prevp (Heap.next h prevp) = some (hand (take h n prev block))) ∧
      prev ∈ h.base :: frees h.start row ∧ Heap.next h prev = block ∧ n ≤ (h.mem block).size := by
  induction ahead generalizing prevp with
  | nil =>
    obtain ⟨x, impossible, -⟩ := big
    cases impossible
  | cons x ahead ih =>
    obtain ⟨next, onward⟩ := trail
    by_cases fits : n ≤ (h.mem x).size
    · refine ⟨1, prevp, x, fun hand more => ?_, member, next, fits⟩
      rw [next, search, if_pos fits]
    · obtain ⟨y, inside, enough⟩ := big
      have later : y ∈ ahead := by
        rcases List.mem_cons.mp inside with rfl | later
        · exact absurd enough fits
        · exact later
      have apart : x ≠ h.freep := by
        rintro rfl
        have nil := stops [] ahead rfl
        simp [nil] at later
      obtain ⟨turns, prev, block, found, facts⟩ := ih onward (nodes x (by simp))
        (fun z inside => nodes z (by simp [inside]))
        (fun front back split => stops (x :: front) back (by rw [split, List.cons_append]))
        ⟨y, later, enough⟩
      refine ⟨turns + 1, prev, block, fun hand more => ?_, facts⟩
      rw [next, search, if_neg fits, if_neg apart]
      exact found hand more

/-- With none, the loop comes to `freep` and asks for more. -/
theorem search_exhausts {ahead : List Nat} (trail : Trail (Heap.next h) prevp (ahead ++ [h.freep]))
    (apart : ∀ x ∈ ahead, x ≠ h.freep) (small : ∀ x ∈ ahead ++ [h.freep], (h.mem x).size < n) :
    ∃ extra, ∀ {α : Type} (hand : Nat × Heap → α) more turns,
      search n hand more (turns + extra) h prevp (Heap.next h prevp) =
        more turns h fun t q => search n hand more turns t q (t.mem q).ptr := by
  induction ahead generalizing prevp with
  | nil =>
    obtain ⟨next, -⟩ := trail
    have few := small h.freep (by simp)
    refine ⟨1, fun hand more turns => ?_⟩
    rw [next, search, if_neg (by omega), if_pos rfl]
  | cons x ahead ih =>
    obtain ⟨next, onward⟩ := trail
    obtain ⟨extra, rest⟩ := ih onward (fun y inside => apart y (by simp [inside]))
      (fun y inside => small y (by
        rw [List.cons_append]
        exact List.mem_cons_of_mem x inside))
    have few := small x (by simp)
    refine ⟨extra + 1, fun hand more turns => ?_⟩
    rw [next, ← Nat.add_assoc, search, if_neg (by omega), if_neg (apart x (by simp))]
    exact rest hand more turns

/-- All nodes, in the order in which the loop comes to them. -/
theorem around_freep (holds : Holds h row) :
    ∃ ahead, Trail (Heap.next h) h.freep (ahead ++ [h.freep]) ∧ (∀ x ∈ ahead, x ≠ h.freep) ∧
      ∀ x, x ∈ ahead ++ [h.freep] ↔ x ∈ h.base :: frees h.start row := by
  obtain ⟨before, rest, split⟩ := List.append_of_mem holds.freep
  have trail := holds.linked.around split
  have distinct := (nodes_sorted holds).imp Nat.ne_of_lt
  rw [split] at distinct
  have parts := List.pairwise_append.mp distinct
  refine ⟨rest ++ before, trail, ?_, ?_⟩
  · intro x inside
    rcases List.mem_append.mp inside with later | earlier
    · exact (List.rel_of_pairwise_cons parts.2.1 later).symm
    · exact parts.2.2 x earlier h.freep (by simp)
  · intro x
    rw [split]
    simp only [List.mem_append, List.mem_cons, List.not_mem_nil, or_false]
    tauto

/-- A block on the list is big enough. -/
def Room (h : Heap) (row : List Block) (n : Nat) : Prop :=
  ∃ x ∈ h.base :: frees h.start row, n ≤ (h.mem x).size

theorem search_room (holds : Holds h row) (nonzero : 0 < n) (room : Room h row n) :
    ∃ turns ptr t row', (∀ {α : Type} (hand : Nat × Heap → α) more,
        search n hand more turns h h.freep (h.mem h.freep).ptr = some (hand (ptr, t))) ∧
      Taken h row n ptr t row' := by
  obtain ⟨ahead, trail, apart, nodes⟩ := around_freep holds
  obtain ⟨x, member, big⟩ := room
  obtain ⟨turns, prev, block, found, inside, next, fits⟩ := search_finds trail holds.freep
    (fun y inside => (nodes y).mp inside)
    (fun front back split => by
      rcases List.eq_nil_or_concat back with nil | ⟨rest, last, rfl⟩
      · exact nil
      · rw [List.concat_eq_append, ← List.cons_append, ← List.append_assoc] at split
        have same := (List.append_inj' split rfl).1
        exact absurd rfl (apart h.freep (by rw [same]; simp)))
    ⟨x, (nodes x).mpr member, big⟩
  obtain ⟨ptr, t, row', taken, facts⟩ := take_spec holds nonzero inside next fits
  exact ⟨turns, ptr, t, row', fun hand more => taken ▸ found hand more, facts⟩

theorem search_full (holds : Holds h row) (full : ¬ Room h row n) :
    ∃ extra, ∀ {α : Type} (hand : Nat × Heap → α) more turns,
      search n hand more (turns + extra) h h.freep (h.mem h.freep).ptr =
        more turns h fun t q => search n hand more turns t q (t.mem q).ptr := by
  obtain ⟨ahead, trail, apart, nodes⟩ := around_freep holds
  exact search_exhausts trail apart fun x inside =>
    Nat.lt_of_not_le fun big => full ⟨x, (nodes x).mp inside, big⟩

/-- `sbrk` has granted `nu` units, and `morecore` has written their header. -/
theorem Holds.grow {nu : Nat} (holds : Holds h row) (nonzero : 0 < nu) (fits : h.brk + 8 * nu < 2 ^ 32)
    (base : t.base = h.base) (start : t.start = h.start) (freep : t.freep = h.freep)
    (brk : t.brk = h.brk + 8 * nu) (size : (t.mem h.brk).size = nu)
    (others : ∀ x, x ≠ h.brk → t.mem x = h.mem x) : Holds t (row ++ [⟨nu, true⟩]) := by
  have oldBrk := holds.brk
  have low := holds.low
  have lower : Lower t row (entry t h.brk [⟨nu, true⟩]) := by
    have lower := Holds.lower (l := row) (r := []) (by rw [List.append_nil]; exact holds)
    rw [entry_used, entry_congr base]
    exact lower.frame low.2 base start fun x below => others x (by omega)
  have upper : Upper t h.brk [⟨nu, true⟩] := by
    refine Upper.cons ⟨by simp, List.isChain_nil, by simp, ?_⟩ nonzero size (by simp)
    simp [frees, Linked]
  refine lower.join upper (by rw [start, oldBrk]) ?_ ?_ ?_ ?_ ?_
  · intro x _ y first
    right
    cases first
    rfl
  · rw [base, start, freep, frees_append, ← List.cons_append]
    exact List.mem_append_left _ holds.freep
  · rw [brk]
    simp [Block.bytes]
  · rw [base, start]
    exact low
  · rw [brk]
    exact fits

/-- `morecore` fails and changes nothing, or adds a free block of at least `n` units. -/
theorem morecore_spec (grant : Bool) (holds : Holds h row) (fits : 8 * n < 2 ^ 31) :
    (grant = true → 2 ^ 31 < h.brk) ∧ (∀ turns, morecore turns h n grant = some (none, h)) ∨
    ∃ turns t row', morecore turns h n grant = some (some t.freep, t) ∧ Holds t row' ∧
      t.base = h.base ∧ t.start = h.start ∧ useds h.start row' = useds h.start row ∧
      ∃ x ∈ frees h.start row', n ≤ (t.mem x).size := by
  unfold morecore
  dsimp only
  generalize units : (if n < 4096 then 4096 else n) = nu
  have enough : n ≤ nu ∧ 0 < nu ∧ 8 * nu < 2 ^ 31 := by
    split at units <;> omega
  have asked : nu * 8 % 2 ^ 32 = 8 * nu := by omega
  rw [asked]
  unfold sbrk
  by_cases granted : grant = true ∧ h.brk + 8 * nu < 2 ^ 32
  · right
    rw [if_pos granted]
    dsimp only
    rw [plus_eq (a := h.brk) (k := 1) (by omega)]
    have grown := Holds.grow (t := ({ h with brk := h.brk + 8 * nu } : Heap).write h.brk
      { h.mem h.brk with size := nu }) holds enough.2.1 granted.2 rfl rfl rfl rfl
      (congrArg Header.size (write_same _ _ _)) (fun x apart => write_other _ _ apart)
    obtain ⟨turns, t, row', freed, facts⟩ := free_spec grown (show h.brk = h.start + _ from holds.brk)
    refine ⟨turns, t, row', ?_, facts.holds, facts.base, facts.start, ?_, ?_⟩
    · exact Option.map_eq_some_iff.mpr ⟨t, freed, rfl⟩
    · exact facts.useds.trans (List.append_nil _)
    · obtain ⟨x, member, big⟩ := facts.room
      exact ⟨x, member, by omega⟩
  · refine .inl ⟨fun granting => ?_, fun turns => by rw [if_neg granted]⟩
    have beyond := mt (And.intro granting) granted
    omega

theorem Holds.freep_ne (holds : Holds h row) : h.freep ≠ 0 := by
  have low := holds.low
  rcases List.mem_cons.mp holds.freep with same | free
  · omega
  · have := frees_low free
    omega

/-- After `morecore` there is a block to be found, whatever comes of it. -/
theorem search_grown (grant : Bool) (holds : Holds h row) (nonzero : 0 < n) (fits : 8 * n < 2 ^ 31) :
    (grant = true → 2 ^ 31 < h.brk) ∧ (∀ turns, morecore turns h n grant = some (none, h)) ∨
    ∃ turns t turns' ptr u row', morecore turns h n grant = some (some t.freep, t) ∧ t.freep ≠ 0 ∧
      (∀ {α : Type} (hand : Nat × Heap → α) more,
        search n hand more turns' t t.freep (t.mem t.freep).ptr = some (hand (ptr, u))) ∧
      Taken h row n ptr u row' := by
  rcases morecore_spec grant holds fits with failed | ⟨turns, t, row', grown, facts⟩
  · exact .inl failed
  · obtain ⟨holds', base, start, useds, x, member, big⟩ := facts
    obtain ⟨turns', ptr, u, row'', found, taken⟩ := search_room holds' nonzero
      ⟨x, List.mem_cons_of_mem _ (start ▸ member), big⟩
    obtain ⟨b, first, last, pointer, before, after⟩ := taken.useds
    rw [start] at before after
    exact .inr ⟨turns, t, turns', ptr, u, row'', grown, Holds.freep_ne holds', found,
      taken.holds, taken.base.trans base, taken.start.trans start,
      b, first, last, pointer, useds.symm.trans before, after⟩

/-- The loop of `malloc` comes to an end: with a block of `n` units, or with none and the heap
as it was. -/
theorem search_spec (grant : Bool) (holds : Holds h row) (nonzero : 0 < n) (fits : 8 * n < 2 ^ 31) :
    ∃ turns ptr t,
      search n id (refill n grant) turns h h.freep (h.mem h.freep).ptr = some (ptr, t) ∧
      (ptr = 0 ∧ t = h ∨ ∃ row', Taken h row n ptr t row') := by
  by_cases room : Room h row n
  · obtain ⟨turns, ptr, t, row', found, taken⟩ := search_room holds nonzero room
    exact ⟨turns, ptr, t, found id _, Or.inr ⟨row', taken⟩⟩
  · obtain ⟨extra, asks⟩ := search_full holds room
    rcases search_grown grant holds nonzero fits with
      ⟨-, failed⟩ | ⟨turns, t, turns', ptr, u, row', grown, -, found, taken⟩
    · refine ⟨0 + extra, 0, h, ?_, Or.inl ⟨rfl, rfl⟩⟩
      rw [asks, refill, failed]
    · refine ⟨turns + turns' + extra, ptr, u, ?_, Or.inr ⟨row', taken⟩⟩
      rw [asks, refill, morecore_mono grown turns', Nat.add_comm]
      exact search_mono refill_mono (found id _)

end Malloc

end ColorXv6.User.HeapOps
