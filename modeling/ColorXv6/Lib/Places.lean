/-!
Places that hold names, zero being no name. The names in use are exactly those held,
and each is held at one place: an allocator neither shares nor leaks a name.
-/
namespace ColorXv6.Lib.Places

variable {ι : Type}

structure Exact (hold : ι → Nat) (used : Nat → Prop) : Prop where
  zero : ¬ used 0
  inUse : ∀ x, hold x ≠ 0 → used (hold x)
  once : ∀ x y, hold x ≠ 0 → hold x = hold y → x = y
  held : ∀ b, used b → ∃ x, hold x = b

variable {hold after : ι → Nat} {used usedAfter : Nat → Prop} {x : ι} {b : Nat}

theorem Exact.congr (exact : Exact hold used) (same : ∀ y, after y = hold y)
    (uses : ∀ c, usedAfter c ↔ used c) : Exact after usedAfter := by
  obtain rfl : after = hold := funext same
  obtain rfl : usedAfter = used := funext fun c => propext (uses c)
  exact exact

variable [DecidableEq ι]

/-- An empty place takes a name that is not in use. -/
theorem Exact.take (exact : Exact hold used) (empty : hold x = 0) (free : ¬ used b)
    (nonzero : b ≠ 0) (holds : ∀ y, after y = if y = x then b else hold y)
    (uses : ∀ c, usedAfter c ↔ c = b ∨ used c) : Exact after usedAfter := by
  obtain ⟨zero, inUse, once, held⟩ := exact
  -- the new name is held nowhere else
  have new : ∀ y, hold y ≠ b := fun y same => free (same ▸ inUse y (same ▸ nonzero))
  constructor
  case zero => grind
  case inUse => grind
  case once =>
    intro y z
    rw [holds, holds]
    split <;> split
    · rename_i left right
      exact fun _ _ => left.trans right.symm
    · exact fun _ same => absurd same.symm (new z)
    · exact fun _ same => absurd same (new y)
    · exact once y z
  case held =>
    intro c inUseAfter
    rcases (uses c).mp inUseAfter with rfl | before
    · exact ⟨x, by rw [holds, if_pos rfl]⟩
    · obtain ⟨y, same⟩ := held c before
      have elsewhere : y ≠ x := by grind
      exact ⟨y, by rw [holds, if_neg elsewhere, same]⟩

end ColorXv6.Lib.Places
