/-!
Weakest preconditions for programs over a state that either return a value or
stop with an error. `wp m Q E s` says that `m` run from `s` returns with `Q` or
stops with `E`; what holds of the state of a stopped program is not recorded.
-/
namespace ColorXv6.Lib.Wp

abbrev Prog (σ ε α : Type) := StateT σ (Except ε) α

variable {σ τ ε δ α β : Type}

def wp (m : Prog σ ε α) (Q : α → σ → Prop) (E : ε → Prop) (s : σ) : Prop :=
  match m s with
  | .ok (a, t) => Q a t
  | .error e => E e

@[simp] theorem wp_pure (a : α) (Q : α → σ → Prop) (E : ε → Prop) (s : σ) :
    wp (pure a : Prog σ ε α) Q E s ↔ Q a s := Iff.rfl

@[simp] theorem wp_bind (m : Prog σ ε α) (f : α → Prog σ ε β) (Q : β → σ → Prop) (E : ε → Prop)
    (s : σ) : wp (m >>= f) Q E s ↔ wp m (fun a t => wp (f a) Q E t) E s := by
  simp only [wp, bind, StateT.bind, Except.bind]
  cases m s with
  | error e => rfl
  | ok r => rfl

@[simp] theorem wp_get (Q : σ → σ → Prop) (E : ε → Prop) (s : σ) :
    wp (get : Prog σ ε σ) Q E s ↔ Q s s := Iff.rfl

@[simp] theorem wp_set (t : σ) (Q : PUnit → σ → Prop) (E : ε → Prop) (s : σ) :
    wp (set t : Prog σ ε PUnit) Q E s ↔ Q ⟨⟩ t := Iff.rfl

@[simp] theorem wp_modify (f : σ → σ) (Q : PUnit → σ → Prop) (E : ε → Prop) (s : σ) :
    wp (modify f : Prog σ ε PUnit) Q E s ↔ Q ⟨⟩ (f s) := Iff.rfl

@[simp] theorem wp_throw (e : ε) (Q : α → σ → Prop) (E : ε → Prop) (s : σ) :
    wp (throw e : Prog σ ε α) Q E s ↔ E e := Iff.rfl

variable {Q : α → σ → Prop} {E : ε → Prop} {s : σ} {m : Prog σ ε α}

theorem wp_ret {a : α} (post : Q a s) :
    wp (pure a : Prog σ ε α) Q E s := post

theorem wp_fail {e : ε} (stops : E e) :
    wp (throw e : Prog σ ε α) Q E s := stops

theorem wp_read (f : σ → Prog σ ε α) (Q : α → σ → Prop) (E : ε → Prop) (s : σ) :
    wp (get >>= f) Q E s ↔ wp (f s) Q E s := Iff.rfl

theorem wp_ite (c : Prop) [Decidable c] (m n : Prog σ ε α) (Q : α → σ → Prop) (E : ε → Prop)
    (s : σ) : wp (if c then m else n) Q E s ↔ if c then wp m Q E s else wp n Q E s := by
  by_cases h : c <;> simp [h]

/-- The rule of consequence, at the states and results a program can reach. -/
theorem wp_mono {R : α → σ → Prop} (spec : wp m Q E s)
    (weaker : ∀ a t, Q a t → R a t) : wp m R E s := by
  unfold wp at *
  cases result : m s with
  | error e => simpa only [result] using spec
  | ok r =>
    simp only [result] at spec ⊢
    exact weaker r.1 r.2 spec

theorem wp_error {F : ε → Prop} (spec : wp m Q E s) (weaker : ∀ e, E e → F e) : wp m Q F s := by
  unfold wp at *
  cases result : m s with
  | error e =>
    simp only [result] at spec ⊢
    exact weaker e spec
  | ok r => simpa only [result] using spec

theorem wp_true (m : Prog σ ε α) (s : σ) (stops : ∀ e, E e) :
    wp m (fun _ _ => True) E s := by
  unfold wp
  cases m s with
  | error e => exact stops e
  | ok r => exact True.intro

/-- Two facts proved separately about one program hold together. -/
theorem wp_and {R : α → σ → Prop} (left : wp m Q E s)
    (right : wp m R E s) : wp m (fun a t => Q a t ∧ R a t) E s := by
  unfold wp at *
  cases result : m s with
  | error e => simpa only [result] using left
  | ok r =>
    simp only [result] at left right ⊢
    exact ⟨left, right⟩

/-- A further fact about the runs that return; how the program stops is taken from the first. -/
theorem wp_also {R : α → σ → Prop} {F : ε → Prop} (spec : wp m Q E s)
    (more : wp m R F s) : wp m (fun a t => Q a t ∧ R a t) E s := by
  unfold wp at *
  cases result : m s with
  | error e => simpa only [result] using spec
  | ok r =>
    simp only [result] at spec more ⊢
    exact ⟨spec, more⟩

/-- A family of facts about one program holds at once. -/
theorem wp_forall {ι : Type} [Nonempty ι] {Q : ι → α → σ → Prop}
    (each : ∀ i, wp m (Q i) E s) : wp m (fun a t => ∀ i, Q i a t) E s := by
  unfold wp at *
  cases result : m s with
  | error e =>
    obtain ⟨i⟩ := ‹Nonempty ι›
    simpa only [result] using each i
  | ok r =>
    intro i
    simpa only [result] using each i

/-- Sequencing through a specification of the first program. -/
theorem wp_seq {f : α → Prog σ ε β} {R : β → σ → Prop} (first : wp m Q E s)
    (rest : ∀ a t, Q a t → wp (f a) R E t) :
    wp (m >>= f) R E s := by
  rw [wp_bind]
  exact wp_mono first rest

/-- What a specification says about a run that returned. -/
theorem wp_ok {t : σ} {a : α} (spec : wp m Q E s) (result : m s = .ok (a, t)) : Q a t := by
  unfold wp at spec
  simpa only [result] using spec

/-- A program that cannot stop with an error returns. -/
theorem wp_returns (spec : wp m Q (fun _ => False) s) :
    ∃ a t, m s = .ok (a, t) ∧ Q a t := by
  unfold wp at spec
  cases result : m s with
  | error e => simp only [result] at spec
  | ok r =>
    simp only [result] at spec
    exact ⟨r.1, r.2, rfl, spec⟩

theorem wp_stopped {e : ε} (spec : wp m Q E s) (result : m s = .error e) : E e := by
  unfold wp at spec
  simpa only [result] using spec

/-- Run a program on one component of a larger state, as part of a program with more ways
to stop. -/
def zoom (get : τ → σ) (put : τ → σ → τ) (lift : ε → δ) (m : Prog σ ε α) : Prog τ δ α := fun t =>
  match m (get t) with
  | .ok (a, s) => .ok (a, put t s)
  | .error e => .error (lift e)

@[simp] theorem wp_zoom (get : τ → σ) (put : τ → σ → τ) (lift : ε → δ) (m : Prog σ ε α)
    (Q : α → τ → Prop) (E : δ → Prop) (t : τ) :
    wp (zoom get put lift m) Q E t ↔
      wp m (fun a s => Q a (put t s)) (fun e => E (lift e)) (get t) := by
  simp only [wp, zoom]
  cases m (get t) with
  | error e => rfl
  | ok r => rfl

/-- A program after which a part of the state is as before, whenever it returns. -/
def Keeps (view : σ → β) (m : Prog σ ε α) : Prop :=
  ∀ s, wp m (fun _ t => view t = view s) (fun _ => True) s

section Keeps
variable {γ : Type} {view : σ → γ}

theorem keeps_pure (a : α) : Keeps view (pure a : Prog σ ε α) := fun _ => rfl

theorem keeps_throw (e : ε) : Keeps view (throw e : Prog σ ε α) := fun _ => True.intro

theorem keeps_modify {f : σ → σ} (same : ∀ s, view (f s) = view s) :
    Keeps view (modify f : Prog σ ε PUnit) := same

theorem keeps_bind {f : α → Prog σ ε β} (first : Keeps view m)
    (rest : ∀ a, Keeps view (f a)) : Keeps view (m >>= f) := by
  intro s
  apply wp_seq (first s)
  intro a t same
  apply wp_mono (rest a t)
  intro b u later
  rw [later, same]

theorem keeps_read {f : σ → Prog σ ε α} (rest : ∀ s, Keeps view (f s)) : Keeps view (get >>= f) :=
  fun s => rest s s

/-- A program on a component that the view does not look at. -/
theorem keeps_zoom {get : τ → σ} {put : τ → σ → τ} {lift : ε → δ} {view : τ → γ}
    (same : ∀ t s, view (put t s) = view t) (m : Prog σ ε α) : Keeps view (zoom get put lift m) := by
  intro t
  rw [wp_zoom]
  apply wp_mono (wp_true m (get t) fun _ => True.intro)
  intro a s _
  exact same t s

end Keeps

-- Proofs about programs go through the rules above; unfolding would run the program.
attribute [irreducible] wp

end ColorXv6.Lib.Wp
