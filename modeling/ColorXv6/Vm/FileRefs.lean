import ColorXv6.Vm.Ownership

/-!
Reference counts of open files. Between two system calls the count of a file is the
number of descriptors that name it. Inside a call it may differ; `held` says by how
much for each file, counting the references the call has in its local variables.
-/
namespace ColorXv6.Vm.FileRefs
open Lib.LittleEndian Lib.Slots Lib.Wp Lib.Runs Lib.Holdings Param Kalloc PageDir Process Kernel Files
open Descriptors CallWalk Finset

variable {ld : Link}

def slotHits (i : Nat) (p : Proc ld) : Nat := ∑ fd ∈ range nofile, if p.ofile fd = some i then 1 else 0

/-- The descriptors, over all processes, that name file `i`. -/
def slots (i : Nat) (s : Machine ld) : Nat := ∑ p ∈ range nproc, slotHits i (s.proc p)

/-- Not yet allocated, or exited. -/
def dead (state : ProcState) : Prop := state = .unused ∨ state = .zombie

/-- The file is this end of the pipe on the page. -/
def IsEnd (file : File) (pa : Nat) (writable : Bool) : Prop :=
  file.type = .pipe ∧ file.pipe = pa ∧ file.writable = writable

/-- The counts of files. There is a file for each open end of a pipe, except for those in `lost`. -/
structure RefsBut (lost : Nat → Bool → Prop) (held : Nat → Int) (s : Machine ld) : Prop where
  exact : ∀ i, ((s.file i).ref : Int) = slots i s + held i
  idle : ∀ i, (s.file i).ref = 0 → (s.file i).type = .none
  closed : ∀ p fd, dead (s.proc p).state ∨ nofile ≤ fd → (s.proc p).ofile fd = none
  ends : ∀ q ∈ s.pipes, ∀ writable, endOpen q writable = true → ¬ lost q.page.pa writable →
    ∃ i, IsEnd (s.file i) q.page.pa writable

abbrev Refs (held : Nat → Int) (s : Machine ld) : Prop := RefsBut (fun _ _ => False) held s

/-- The panics that are excluded. -/
def sound (h : Halt) : Prop := h ≠ .filedup ∧ h ≠ .fileclose

variable {fd f : Nat} {s : Machine ld} {α : Type}

theorem slotHits_setOfile (i : Nat) (proc : Proc ld) (f : Option Nat) (inside : fd < nofile) :
    slotHits i (setOfile fd f proc) + (if proc.ofile fd = some i then 1 else 0) =
      slotHits i proc + (if f = some i then 1 else 0) := by
  have moved := sum_range_update inside (fun k => if proc.ofile k = some i then 1 else 0)
    (fun k => if (setOfile fd f proc).ofile k = some i then 1 else 0) (by
      intro k other
      simp [setOfile, other])
  simpa [slotHits, setOfile] using moved

theorem slots_modifyProc (i : Nat) (s : Machine ld) {p : Nat} (f : Proc ld → Proc ld)
    (inside : p < nproc) :
    slots i { s with proc := fun q => if q = p then f (s.proc q) else s.proc q } +
        slotHits i (s.proc p) = slots i s + slotHits i (f (s.proc p)) := by
  have moved := sum_range_update inside (fun q => slotHits i (s.proc q))
    (fun q => slotHits i (if q = p then f (s.proc q) else s.proc q)) (by
      intro q other
      simp [other])
  simpa [slots] using moved

theorem slotHits_pos {i : Nat} {proc : Proc ld} (inside : fd < nofile)
    (here : proc.ofile fd = some i) : 0 < slotHits i proc := by
  apply sum_pos'
  · intro _ _
    exact Nat.zero_le _
  · exact ⟨fd, mem_range.mpr inside, by simp [here]⟩

theorem slots_pos {i : Nat} {p : Nat} (slot : p < nproc) (inside : fd < nofile)
    (here : (s.proc p).ofile fd = some i) : 0 < slots i s := by
  apply sum_pos'
  · intro _ _
    exact Nat.zero_le _
  · exact ⟨p, mem_range.mpr slot, slotHits_pos inside here⟩

section Facts
variable {held : Nat → Int} {s t : Machine ld} {p fd i : Nat}

/-- A file that a descriptor names is in use. -/
theorem Refs.named (refs : Refs held s) (slot : p < nproc) (inside : fd < nofile)
    (here : (s.proc p).ofile fd = some i) (local_ : 0 ≤ held i) : 0 < (s.file i).ref := by
  have count := refs.exact i
  have some_ := slots_pos slot inside here
  omega

/-- So is one that the call has a reference to. -/
theorem Refs.taken (refs : Refs held s) (local_ : 0 < held i) : 0 < (s.file i).ref := by
  have count := refs.exact i
  omega

/-- What leaves files, pipes and descriptors alone and ends no process that has some. -/
theorem Refs.frame (refs : Refs held s) (file : t.file = s.file) (pipes : t.pipes = s.pipes)
    (ofile : ∀ p, (t.proc p).ofile = (s.proc p).ofile)
    (ends : ∀ p, dead (t.proc p).state → dead (s.proc p).state ∨ ∀ fd, (s.proc p).ofile fd = none) :
    Refs held t where
  exact i := by
    have same : slots i t = slots i s :=
      sum_range_same _ _ fun p _ => by simp only [slotHits, ofile p]
    rw [file, same]
    exact refs.exact i
  idle i unused := by
    rw [file] at unused ⊢
    exact refs.idle i unused
  closed p fd gone := by
    rw [ofile p]
    rcases gone with gone | above
    · rcases ends p gone with before | closed
      · exact refs.closed p fd (Or.inl before)
      · exact closed fd
    · exact refs.closed p fd (Or.inr above)
  ends := by
    rw [file, pipes]
    exact refs.ends

/-- A descriptor is set. -/
theorem Refs.setOfile (refs : Refs held s) {f : Option Nat} (slot : p < nproc) (inside : fd < nofile)
    (live : ¬ dead (s.proc p).state) {held' : Nat → Int}
    (moved : ∀ i, held' i + (if f = some i then 1 else 0) =
      held i + (if (s.proc p).ofile fd = some i then 1 else 0)) :
    Refs held' { s with proc := fun q => if q = p then setOfile fd f (s.proc q) else s.proc q } where
  exact i := by
    have procs := slots_modifyProc i s (Process.setOfile fd f) slot
    have one := slotHits_setOfile i (s.proc p) f inside
    have count := refs.exact i
    have now := moved i
    dsimp only
    split_ifs at one now <;> omega
  idle := refs.idle
  closed q fd' gone := by
    dsimp only at gone ⊢
    by_cases here : q = p
    · subst here
      rw [if_pos rfl] at gone ⊢
      have above : nofile ≤ fd' := gone.resolve_left live
      have apart : fd' ≠ fd := by omega
      simp [Process.setOfile, apart, refs.closed q fd' (Or.inr above)]
    · rw [if_neg here] at gone ⊢
      exact refs.closed q fd' gone
  ends := refs.ends

end Facts

/-! File operations. -/

structure Good (held : Nat → Int) (s : Machine ld) : Prop where
  pipes : PipeInv s
  refs : Refs held s

section Operations
variable {held : Nat → Int} {s : Machine ld} {p fd i : Nat}

/-- The files change: one that loses its last reference is nothing any more, and one that was an
end of a pipe still is, or that end is lost. -/
theorem Refs.files {t : Machine ld} {held' : Nat → Int} {lost : Nat → Bool → Prop} (refs : Refs held s)
    (procs : t.proc = s.proc) (counts : ∀ j, ((t.file j).ref : Int) + held j = (s.file j).ref + held' j)
    (idle : ∀ j, (t.file j).ref = 0 → t.file j = s.file j ∨ (t.file j).type = .none)
    (kept : ∀ j pa w, IsEnd (s.file j) pa w → IsEnd (t.file j) pa w ∨ lost pa w)
    (pipes : ∀ q ∈ t.pipes, q ∈ s.pipes ∨ ∀ w, ∃ j, IsEnd (t.file j) q.page.pa w) :
    RefsBut lost held' t where
  exact j := by
    have same : slots j t = slots j s := by
      unfold slots
      rw [procs]
    have before := refs.exact j
    have now := counts j
    rw [same]
    omega
  idle j unused := by
    rcases idle j unused with same | none_
    · rw [same] at unused ⊢
      exact refs.idle j unused
    · exact none_
  closed := by
    rw [procs]
    exact refs.closed
  ends q member w isOpen present := by
    rcases pipes q member with old | new
    · obtain ⟨j, here⟩ := refs.ends q old w isOpen not_false
      exact ⟨j, (kept j _ w here).resolve_right present⟩
    · exact new w

/-- The same for one file. -/
theorem Refs.setFile {f : File → File} {held' : Nat → Int} {lost : Nat → Bool → Prop}
    (refs : Refs held s) (used : 0 < (f (s.file i)).ref ∨ (f (s.file i)).type = .none)
    (kept : ∀ pa w, IsEnd (s.file i) pa w → IsEnd (f (s.file i)) pa w ∨ lost pa w)
    (moved : ∀ j, held' j =
      held j + if j = i then ((f (s.file i)).ref : Int) - (s.file i).ref else 0) :
    RefsBut lost held' { s with file := fun j => if j = i then f (s.file j) else s.file j } := by
  refine refs.files rfl ?_ ?_ ?_ fun q member => Or.inl member
  all_goals
    intro j
    by_cases here : j = i
  · have now := moved j
    subst here
    simp only [if_true] at now ⊢
    omega
  · simp [here, moved j]
  · subst here
    simp only [if_true]
    intro unused
    exact Or.inr (used.resolve_left (by omega))
  · simp [here]
  · subst here
    simpa using kept
  · intro pa w before
    simp only [here, if_false]
    exact Or.inl before

theorem good_filealloc (good : Good held s) :
    wp filealloc (fun r t => (r = none ∧ t = s) ∨
      ∃ i, r = some i ∧ Good (add held i) t ∧ (s.file i).ref = 0 ∧
        t = { s with file := fun j => if j = i then { s.file j with ref := 1 } else s.file j })
      sound s := by
  have counts : wp filealloc (fun r t => (r = none ∧ t = s) ∨
      ∃ i, r = some i ∧ Refs (add held i) t ∧ (s.file i).ref = 0 ∧
        t = { s with file := fun j => if j = i then { s.file j with ref := 1 } else s.file j })
      sound s := by
    unfold filealloc
    rw [wp_read]
    cases found : firstSlot nfile fun i => (s.file i).ref = 0 with
    | none => exact wp_ret (Or.inl ⟨rfl, rfl⟩)
    | some i =>
      have free : (s.file i).ref = 0 := by simpa using (firstSlot_some found).2
      rw [wp_bind]
      apply wp_modifyFile
      have taken : Refs (add held i) { s with
          file := fun j => if j = i then { s.file j with ref := 1 } else s.file j } := by
        refine good.refs.setFile (f := fun file => { file with ref := 1 }) (.inl Nat.one_pos)
          (fun _ _ same => .inl same) ?_
        intro j
        simp [add, free]
      exact wp_ret (Or.inr ⟨i, rfl, taken, free, rfl⟩)
  apply wp_mono (wp_also counts (safe_filealloc good.pipes))
  rintro r t ⟨none_ | ⟨i, some_, refs, free, result⟩, safe, -⟩
  · exact Or.inl none_
  · exact Or.inr ⟨i, some_, ⟨safe.2, refs⟩, free, result⟩

theorem refs_filedup (refs : Refs held s) (used : 0 < (s.file i).ref) :
    wp (filedup i) (fun _ t => Refs (add held i) t ∧ t.proc = s.proc) sound s := by
  unfold filedup
  rw [wp_read, if_neg (by omega)]
  apply wp_modifyFile
  refine ⟨refs.setFile (f := fun file => { file with ref := file.ref + 1 }) (.inl (Nat.succ_pos _))
    (fun _ _ same => .inl same) ?_, rfl⟩
  intro j
  simp [add]

theorem good_filedup (good : Good held s) (used : 0 < (s.file i).ref) :
    wp (filedup i) (fun _ t => Good (add held i) t ∧ t.proc = s.proc) sound s := by
  apply wp_mono (wp_also (refs_filedup good.refs used) (safe_filedup good.pipes i))
  rintro _ t ⟨⟨refs, same⟩, safe⟩
  exact ⟨⟨safe.2, refs⟩, same⟩

/-- A descriptor that was free now names a file. -/
theorem good_install (good : Good held s) (slot : p < nproc) (inside : fd < nofile)
    (live : ¬ dead (s.proc p).state) (free : (s.proc p).ofile fd = none) :
    wp (modifyProc p (setOfile fd (some f))) (fun _ t => Good (drop held f) t ∧
      t = { s with proc := fun q => if q = p then setOfile fd (some f) (s.proc q) else s.proc q })
      sound s := by
  have pipes := (wp_modify ..).mp (safeWalk.setOfile p fd (some f) s good.pipes)
  apply wp_modifyProc
  refine ⟨⟨pipes.2, good.refs.setOfile slot inside live ?_⟩, rfl⟩
  intro i
  simp [drop, free, eq_comm]

/-- A descriptor no longer names a file. -/
theorem good_remove (good : Good held s) (slot : p < nproc) (inside : fd < nofile)
    (live : ¬ dead (s.proc p).state) (here : (s.proc p).ofile fd = some f) :
    wp (modifyProc p (setOfile fd none)) (fun _ t => Good (add held f) t ∧
      t = { s with proc := fun q => if q = p then setOfile fd none (s.proc q) else s.proc q })
      sound s := by
  have pipes := (wp_modify ..).mp (safeWalk.setOfile p fd none s good.pipes)
  apply wp_modifyProc
  refine ⟨⟨pipes.2, good.refs.setOfile slot inside live ?_⟩, rfl⟩
  intro i
  simp [add, here, eq_comm]

theorem good_fdalloc (good : Good held s) (slot : p < nproc) (live : ¬ dead (s.proc p).state) :
    wp (fdalloc p f) (fun r t => (r = none ∧ t = s) ∨
      ∃ fd, r = some fd ∧ fd < nofile ∧ (s.proc p).ofile fd = none ∧ Good (drop held f) t ∧
        t = { s with proc := fun q => if q = p then setOfile fd (some f) (s.proc q) else s.proc q })
      sound s := by
  unfold fdalloc
  rw [wp_read]
  cases found : firstSlot nofile fun fd => ((s.proc p).ofile fd).isNone with
  | none => exact wp_ret (Or.inl ⟨rfl, rfl⟩)
  | some fd =>
    obtain ⟨inside, test⟩ := firstSlot_some found
    have free : (s.proc p).ofile fd = none := Option.isNone_iff_eq_none.mp test
    apply wp_seq (good_install good slot inside live free)
    rintro _ t ⟨after, result⟩
    exact wp_ret (Or.inr ⟨fd, rfl, inside, free, after, result⟩)

theorem endOpen_closed (q : Pipe ld) (writable : Bool) : endOpen (q.close writable) writable = false := by
  cases writable <;> rfl

theorem endOpen_other (q : Pipe ld) {writable w : Bool} (other : w ≠ writable) :
    endOpen (q.close writable) w = endOpen q w := by
  cases writable <;> cases w <;> simp_all [endOpen, Pipe.close]

/-- Whatever memory operations do, files and processes are as before. -/
theorem wp_inKmem_any {m : Prog (Kmem ld) Stop α} {Q : α → Machine ld → Prop}
    (after : ∀ a k, Q a { s with kmem := k }) : wp (inKmem m) Q sound s := by
  unfold inKmem
  rw [wp_zoom]
  apply wp_mono (wp_true m s.kmem fun _ => by simp [sound])
  intro a k _
  exact after a k

/-- A pipe that is erased is gone for good. -/
theorem erased_page {pa : Nat} {q r : Pipe ld} (pipes : PipeInv s) (member : q ∈ s.pipes)
    (page : q.page.pa = pa) (left : r ∈ s.pipes.eraseP fun other => other.page.pa = pa) :
    r.page.pa ≠ pa := by
  intro same
  have erased := pipeHits_erase pa member page
  have once := pipes.exclusive pa
  have hit : 0 < pipeHits pa (s.pipes.eraseP fun other => other.page.pa = pa) :=
    List.count_pos_iff.mpr (List.mem_map.mpr ⟨r, left, same⟩)
  simp only [if_true] at erased
  omega

theorem refs_pipeclose {pa : Nat} {writable : Bool} {lost : Nat → Bool → Prop}
    (refs : RefsBut lost held s) (only : ∀ pa' w, lost pa' w → pa' = pa ∧ w = writable)
    (pipes : PipeInv s) :
    wp (pipeclose pa writable) (fun _ t => Refs held t ∧ t.proc = s.proc) sound s := by
  unfold pipeclose
  rw [wp_read]
  cases found : s.pipes.find? (fun q => q.page.pa = pa) with
  | none => exact wp_fail (by simp [sound])
  | some q =>
    have member := List.mem_of_find?_eq_some found
    have page : q.page.pa = pa := by simpa using List.find?_some found
    dsimp only
    split
    · rw [wp_bind, wp_set]
      apply wp_inKmem_any
      intro _ k
      refine ⟨{ refs with ends := ?_ }, rfl⟩
      intro r left w isOpen _
      exact refs.ends r (List.mem_of_mem_eraseP left) w isOpen fun here =>
        erased_page pipes member page left (only _ _ here).1
    · rw [wp_set]
      refine ⟨{ refs with ends := ?_ }, rfl⟩
      intro r inside w isOpen _
      obtain ⟨r', member', rfl⟩ := List.mem_map.mp inside
      by_cases here : r'.page.pa = pa
      · rw [if_pos here] at isOpen ⊢
        have other : w ≠ writable := by
          rintro rfl
          rw [endOpen_closed] at isOpen
          cases isOpen
        rw [endOpen_other q other] at isOpen
        rw [close_page]
        exact refs.ends q member w isOpen fun same => other (only _ _ same).2
      · rw [if_neg here] at isOpen ⊢
        exact refs.ends r' member' w isOpen fun same => here (only _ _ same).1

theorem good_fileclose (good : Good held s) (used : 0 < (s.file i).ref) :
    wp (fileclose i) (fun _ t => Good (drop held i) t ∧ t.proc = s.proc) sound s := by
  have counts : wp (fileclose i) (fun _ t => Refs (drop held i) t ∧ t.proc = s.proc) sound s := by
    unfold fileclose
    rw [wp_read]
    rw [if_neg (by omega)]
    split
    · rename_i more
      apply wp_modifyFile
      refine ⟨good.refs.setFile (f := fun file => { file with ref := file.ref - 1 })
        (.inl (by dsimp only; omega)) (fun _ _ same => .inl same) ?_, rfl⟩
      intro j
      simp only [drop]
      split <;> omega
    · rename_i last
      rw [wp_bind]
      apply wp_modifyFile
      have refs : RefsBut (IsEnd (s.file i)) (drop held i) _ := good.refs.setFile
        (f := fun file => { file with ref := 0, type := .none }) (.inr rfl)
        (fun _ _ here => .inr here) (by
          intro j
          simp only [drop]
          split <;> omega)
      split
      · have pipes := (wp_modify ..).mp (safe_modifyFile good.pipes i
          (f := fun f => { f with ref := 0, type := .none }) fun file typed => by cases typed)
        exact refs_pipeclose refs (fun _ _ here => ⟨here.2.1.symm, here.2.2.symm⟩) pipes.2
      · rename_i plain
        refine wp_ret ⟨{ refs with ends := ?_ }, rfl⟩
        intro q member w isOpen _
        exact refs.ends q member w isOpen fun here => plain here.1
  apply wp_mono (wp_also counts (safe_fileclose good.pipes i))
  rintro _ t ⟨⟨refs, same⟩, safe⟩
  exact ⟨⟨safe.2, refs⟩, same⟩

/-- Both files of a call that failed are closed. -/
theorem good_closeBoth {g : Nat} {a : α} (good : Good (add (add held f) g) s)
    (none_ : ∀ i, 0 ≤ held i) :
    wp (fileclose f >>= fun _ => fileclose g >>= fun _ => pure a : MachineM ld α)
      (fun r t => r = a ∧ Good held t ∧ t.proc = s.proc) sound s := by
  have first : 0 < (add (add held f) g) f := by
    have here := none_ f
    simp only [add, if_true]
    split <;> omega
  apply wp_seq (good_fileclose good (good.refs.taken first))
  rintro _ t ⟨closed, same⟩
  rw [add_swap, drop_add] at closed
  have second : 0 < add held g g := by
    have here := none_ g
    simp only [add, if_true]
    omega
  apply wp_seq (good_fileclose closed (closed.refs.taken second))
  rintro _ u ⟨done, same'⟩
  rw [drop_add] at done
  exact wp_ret ⟨rfl, done, same'.trans same⟩

theorem good_pipealloc (good : Good held s) (none_ : ∀ i, 0 ≤ held i) :
    wp pipealloc (fun r t => t.proc = s.proc ∧
      match r with
      | none => Good held t
      | some (f0, f1) => Good (add (add held f0) f1) t) sound s := by
  have counts : wp pipealloc (fun r t => t.proc = s.proc ∧
      match r with
      | none => Refs held t
      | some (f0, f1) => Refs (add (add held f0) f1) t) sound s := by
    apply wp_seq (good_filealloc good)
    rintro r1 s1 (⟨rfl, rfl⟩ | ⟨f0, rfl, good1, free0, rfl⟩)
    · exact wp_ret ⟨rfl, good.refs⟩
    · apply wp_seq (good_filealloc good1)
      rintro r2 s2 (⟨rfl, rfl⟩ | ⟨f1, rfl, good2, free1, rfl⟩)
      · have used : 0 < add held f0 f0 := by
          have here := none_ f0
          simp only [add, if_true]
          omega
        apply wp_seq (good_fileclose good1 (good1.refs.taken used))
        rintro _ t ⟨closed, same⟩
        rw [drop_add] at closed
        exact wp_ret ⟨same, closed.refs⟩
      · rw [wp_bind]
        unfold inKmem
        rw [wp_zoom]
        apply wp_kalloc
        · intro _
          apply wp_mono (good_closeBoth good2 none_)
          rintro _ t ⟨rfl, closed, same⟩
          exact ⟨same, closed.refs⟩
        · intro page rest list
          have different : f0 ≠ f1 := by
            rintro rfl
            simp at free1
          have plain0 := good.refs.idle f0 free0
          have plain1 := good1.refs.idle f1 free1
          rw [wp_bind, wp_modify, wp_bind]
          apply wp_modifyFile
          rw [wp_bind]
          apply wp_modifyFile
          refine wp_ret ⟨rfl, ?_⟩
          refine good2.refs.files rfl ?_ ?_ ?_ ?_
          · intro j
            by_cases h0 : j = f0 <;> by_cases h1 : j = f1 <;> simp_all
          · intro j unused
            by_cases h0 : j = f0 <;> by_cases h1 : j = f1 <;> simp_all
          · rintro j pa w ⟨typed, rest⟩
            -- neither of the two was an end
            by_cases h0 : j = f0 <;> by_cases h1 : j = f1 <;> simp_all [IsEnd]
          · intro q member
            rcases List.mem_cons.mp member with rfl | old
            · right
              rintro (_ | _)
              · exact ⟨f0, by simp [IsEnd, different]⟩
              · exact ⟨f1, by simp [IsEnd]⟩
            · exact Or.inl old
  apply wp_mono (wp_also counts (safe_pipealloc good.pipes))
  rintro r t ⟨⟨same, refs⟩, safe⟩
  refine ⟨same, ?_⟩
  cases r with
  | none => exact ⟨safe.2, refs⟩
  | some files => exact ⟨safe.2, refs⟩

end Operations

/-! System calls on files, by a process that is not dead. -/

section Calls
variable {s : Machine ld} {p : Nat} (good : Good nobody s) (slot : p < nproc)
  (live : ¬ dead (s.proc p).state)
include good slot live

theorem refs_sysPipe : wp (sysPipe p) (fun _ t => Refs nobody t) sound s := by
  apply wp_seq (good_pipealloc good fun _ => le_rfl)
  rintro r s1 ⟨same1, good1⟩
  cases r with
  | none => exact wp_ret good1.refs
  | some files =>
    obtain ⟨rf, wf⟩ := files
    apply wp_seq (good_fdalloc good1 slot (by rw [same1]; exact live))
    rintro r s2 (⟨rfl, rfl⟩ | ⟨fd0, rfl, inside0, free0, good2, rfl⟩)
    · exact wp_mono (good_closeBoth good1 fun _ => le_rfl) fun _ t closed => closed.2.1.refs
    · rw [add_swap, drop_add] at good2
      apply wp_seq (good_fdalloc good2 slot (by simpa [setOfile, same1] using live))
      rintro r s3 (⟨rfl, rfl⟩ | ⟨fd1, rfl, inside1, free1, good3, rfl⟩)
      · apply wp_seq (good_remove good2 (f := rf) slot inside0 (by simpa [setOfile, same1] using live)
          (by simp [setOfile]))
        rintro _ t ⟨good3, -⟩
        rw [add_swap] at good3
        exact wp_mono (good_closeBoth good3 fun _ => le_rfl) fun _ t closed => closed.2.1.refs
      · rw [drop_add] at good3
        exact wp_ret good3.refs

theorem refs_sysOpen (readable writable : Bool) :
    wp (sysOpen p readable writable) (fun _ t => Refs nobody t) sound s := by
  apply wp_seq (good_filealloc good)
  rintro r s1 (⟨rfl, rfl⟩ | ⟨f, rfl, good1, free, rfl⟩)
  · exact wp_ret good.refs
  · apply wp_seq (good_fdalloc good1 slot live)
    rintro r s2 (⟨rfl, rfl⟩ | ⟨fd, rfl, inside, unset, good2, rfl⟩)
    · have used : 0 < add nobody f f := by simp [add, nobody]
      apply wp_seq (good_fileclose good1 (good1.refs.taken used))
      rintro _ t ⟨closed, -⟩
      rw [drop_add] at closed
      exact wp_ret closed.refs
    · rw [drop_add] at good2
      rw [wp_bind]
      apply wp_modifyFile
      refine wp_ret (good2.refs.setFile (i := f)
        (f := fun file => { file with type := .inode, readable, writable })
        (.inl (by simp)) (fun _ _ before => ?_) (by simp))
      simp [IsEnd, good.refs.idle f free] at before

theorem refs_sysDup (fd : Nat) : wp (sysDup p fd) (fun _ t => Refs nobody t) sound s := by
  unfold sysDup
  rw [wp_read]
  split
  · exact wp_ret good.refs
  · rename_i inside
    split
    · exact wp_ret good.refs
    · rename_i f here
      apply wp_seq (good_fdalloc good slot live)
      rintro r s1 (⟨rfl, rfl⟩ | ⟨new, rfl, inside', unset, good1, rfl⟩)
      · exact wp_ret good.refs
      · have used := good.refs.named slot (by omega) here le_rfl
        apply wp_seq (good_filedup good1 (i := f) used)
        rintro _ t ⟨good2, -⟩
        rw [add_drop] at good2
        exact wp_ret good2.refs

theorem refs_sysClose (fd : Nat) : wp (sysClose p fd) (fun _ t => Refs nobody t) sound s := by
  unfold sysClose
  rw [wp_read]
  split
  · exact wp_ret good.refs
  · rename_i inside
    split
    · exact wp_ret good.refs
    · rename_i f here
      apply wp_seq (good_remove good slot (by omega) live here)
      rintro _ s1 ⟨good1, -⟩
      apply wp_seq (good_fileclose good1 (good1.refs.taken (by simp [add, nobody])))
      rintro _ t ⟨closed, -⟩
      rw [drop_add] at closed
      exact wp_ret closed.refs

/-- The common end of `sys_dup2`: the new descriptor is free and the file is in use. -/
theorem refs_dupTo {result : Int} (inside : fd < nofile) (free : (s.proc p).ofile fd = none)
    (used : 0 < (s.file f).ref) :
    wp (filedup f >>= fun _ => modifyProc p (setOfile fd (some f)) >>= fun _ => pure result :
      MachineM ld Int) (fun _ t => Refs nobody t) sound s := by
  apply wp_seq (good_filedup good used)
  rintro _ s1 ⟨good1, same⟩
  apply wp_seq (good_install good1 slot inside (by rw [same]; exact live) (by rw [same]; exact free))
  rintro _ t ⟨good2, -⟩
  rw [drop_add] at good2
  exact wp_ret good2.refs

theorem refs_sysDup2 (oldfd newfd : Int) :
    wp (sysDup2 p oldfd newfd) (fun _ t => Refs nobody t) sound s := by
  refine (reads_ofile (by simp [sound]) rfl p s).wp_sysDup2 (fun _ => good.refs) ?_
  intro fold oldInside newInside apart here
  cases busy : (s.proc p).ofile newfd.toNat with
  | none =>
    exact refs_dupTo good slot live newInside busy (good.refs.named slot oldInside here le_rfl)
  | some fnew =>
    unfold FileOps.closeFirst
    rw [bind_assoc]
    apply wp_seq (good_remove good slot newInside live busy)
    rintro _ s1 ⟨good1, rfl⟩
    apply wp_seq (good_fileclose good1 (good1.refs.taken (by simp [add, nobody])))
    rintro _ s2 ⟨good2, same⟩
    rw [drop_add] at good2
    have still : (s2.proc p).ofile oldfd.toNat = some fold := by
      rw [same]
      simpa [setOfile, apart] using here
    exact refs_dupTo good2 slot (by rw [same]; simpa [setOfile] using live) newInside
      (by rw [same]; simp [setOfile]) (good2.refs.named slot oldInside still le_rfl)

end Calls

/-! Processes. -/

section Processes
variable {held : Nat → Int} {s : Machine ld} {p : Nat}

/-- A change to one process that keeps its descriptors and does not end it. -/
theorem refs_modifyProc (refs : Refs held s) (p : Nat) {f : Proc ld → Proc ld}
    (same : (f (s.proc p)).ofile = (s.proc p).ofile)
    (ends : dead (f (s.proc p)).state → dead (s.proc p).state ∨ ∀ fd, (s.proc p).ofile fd = none) :
    Refs held { s with proc := fun q => if q = p then f (s.proc q) else s.proc q } := by
  refine refs.frame rfl rfl ?_ ?_
  · intro q
    dsimp only
    split
    · rename_i here
      rw [here, same]
    · rfl
  · intro q gone
    dsimp only at gone
    split at gone
    · rename_i here
      subst here
      exact ends gone
    · exact Or.inl gone

theorem refs_allocproc (refs : Refs held s) :
    wp allocproc (fun r t => Refs held t ∧ ∀ np, r = some np →
      np < nproc ∧ (s.proc np).state = .unused ∧ (t.proc np).state = .embryo ∧
        (∀ fd, (t.proc np).ofile fd = none) ∧ ∀ q, q ≠ np → t.proc q = s.proc q) sound s := by
  unfold allocproc
  rw [wp_read]
  cases found : firstSlot nproc fun p => (s.proc p).state = .unused with
  | none => exact wp_ret ⟨refs, by simp⟩
  | some np =>
    obtain ⟨inside, test⟩ := firstSlot_some found
    have unused : (s.proc np).state = .unused := by simpa using test
    have none_ : ∀ fd, (s.proc np).ofile fd = none := fun fd => refs.closed np fd (Or.inl (Or.inl unused))
    rw [wp_bind]
    apply wp_modifyProc
    rw [wp_bind, wp_modify, wp_bind]
    apply wp_inKmem_any
    intro kstack k
    cases kstack with
    | none =>
      rw [wp_bind]
      apply wp_modifyProc
      refine wp_ret ⟨?_, by simp⟩
      refine refs.frame rfl rfl ?_ ?_
      · intro q
        dsimp only
        split <;> rfl
      · intro q gone
        by_cases here : q = np
        · exact Or.inr (by rw [here]; exact none_)
        · simp only [here, if_false] at gone
          exact Or.inl gone
    | some kstack =>
      rw [wp_bind]
      apply wp_modifyProc
      refine wp_ret ⟨?_, ?_⟩
      · refine refs.frame rfl rfl ?_ ?_
        · intro q
          dsimp only
          split <;> rfl
        · intro q gone
          by_cases here : q = np
          · simp [here, dead] at gone
          · simp only [here, if_false] at gone
            exact Or.inl gone
      · rintro _ ⟨⟩
        refine ⟨inside, unused, by simp, ?_, ?_⟩
        · simpa using none_
        · intro q other
          simp [other]

/-- The descriptors that the loop of `fork` has copied, and those it has not. -/
theorem refs_dupFiles (refs : Refs nobody s) {np : Nat} (slot : p < nproc) (inside : np < nproc)
    (live : ¬ dead (s.proc np).state) (none_ : ∀ fd, (s.proc np).ofile fd = none)
    {n : Nat} (small : n ≤ nofile) :
    wp (fileOps.dupFiles p np n) (fun _ t => Refs nobody t ∧ (∀ fd, n ≤ fd → (t.proc np).ofile fd = none) ∧
      (t.proc np).state = (s.proc np).state ∧ ∀ q, q ≠ np → t.proc q = s.proc q) sound s := by
  induction n with
  | zero => exact wp_ret ⟨refs, fun fd _ => none_ fd, rfl, fun _ _ => rfl⟩
  | succ n ih =>
    apply wp_seq (ih (by omega))
    rintro _ t ⟨refs, rest, state, others⟩
    apply wp_seq (reads_ofile (by simp [sound]) rfl p t n)
    rintro r _ ⟨rfl, -, here⟩
    cases r with
    | none => exact wp_ret ⟨refs, fun fd above => rest fd (by omega), state, others⟩
    | some f =>
      have used := refs.named slot (by omega) here.symm le_rfl
      apply wp_seq (refs_filedup refs used)
      rintro _ u ⟨refs', same⟩
      apply wp_modifyProc
      refine ⟨?_, ?_, ?_, ?_⟩
      · refine refs'.setOfile inside (by omega) ?_ ?_
        · rw [same, state]
          exact live
        · intro i
          rw [same, rest n le_rfl]
          simp [add, nobody, eq_comm]
      · intro fd above
        have apart : fd ≠ n := by omega
        simp [setOfile, apart, same, rest fd (by omega)]
      · simp [setOfile, same, state]
      · intro q away
        simp [away, same, others q away]

/-- `kfree` of a stack. -/
theorem wp_kfreeStack_any {kstack : Option (Frame ld)} {Q : Unit → Machine ld → Prop}
    (after : ∀ k, Q () { s with kmem := k }) : wp (kfreeStack kstack) Q sound s := by
  unfold kfreeStack
  split
  · exact wp_fail (by simp [sound])
  · exact wp_inKmem_any fun _ k => after k

theorem refs_fork (refs : Refs nobody s) (slot : p < nproc) :
    wp (fork p) (fun _ t => Refs nobody t) sound s := by
  apply wp_seq (refs_allocproc refs)
  rintro r s1 ⟨refs1, found⟩
  cases r with
  | none => exact wp_ret refs1
  | some np =>
    obtain ⟨inside, unused, embryo, none_, others⟩ := found np rfl
    have live : ¬ dead (s1.proc np).state := by simp [dead, embryo]
    rw [wp_read]
    cases dir : (s1.proc p).pgdir with
    | none => exact wp_fail (by simp [sound])
    | some parent =>
      rw [wp_bind]
      apply wp_inKmem_any
      intro r k
      have memory : Refs nobody { s1 with kmem := k } :=
        refs1.frame rfl rfl (fun _ => rfl) fun _ gone => Or.inl gone
      cases r with
      | none =>
        rw [wp_bind]
        apply wp_kfreeStack_any
        intro k'
        have memory' : Refs nobody { s1 with kmem := k' } :=
          refs1.frame rfl rfl (fun _ => rfl) fun _ gone => Or.inl gone
        rw [wp_bind]
        apply wp_modifyProc
        refine wp_ret (refs_modifyProc memory' np
          (f := fun proc => { proc with pgdir := none, kstack := none, state := .unused }) rfl ?_)
        exact fun _ => Or.inr none_
      | some d =>
        rw [wp_bind]
        apply wp_modifyProc
        have copied := refs_modifyProc memory np (f := fun proc => { proc with
          pgdir := some d, sz := (s1.proc p).sz, parent := some p,
          tf := { (s1.proc p).tf with eax := 0 } }) rfl Or.inl
        apply wp_seq (refs_dupFiles copied slot inside (by simpa using live) (by simpa using none_)
          le_rfl)
        rintro _ t ⟨refs, -, -, -⟩
        rw [wp_bind]
        apply wp_modifyProc
        refine wp_ret (refs_modifyProc refs np (f := fun proc => { proc with
          name := (s1.proc p).name, prio := (s1.proc p).prio, state := .runnable }) rfl ?_)
        intro gone
        rcases gone with gone | gone <;> cases gone

/-- The descriptors that the loop of `exit` has closed. -/
theorem good_closeFiles (good : Good nobody s) (slot : p < nproc) (live : ¬ dead (s.proc p).state)
    {n : Nat} (small : n ≤ nofile) :
    wp (fileOps.closeFiles p n) (fun _ t => Good nobody t ∧ (∀ fd, fd < n → (t.proc p).ofile fd = none) ∧
      (t.proc p).state = (s.proc p).state) sound s := by
  induction n with
  | zero => exact wp_ret ⟨good, by simp, rfl⟩
  | succ n ih =>
    apply wp_seq (ih (by omega))
    rintro _ t ⟨good, done, state⟩
    have live' : ¬ dead (t.proc p).state := by
      rw [state]
      exact live
    apply wp_seq (reads_ofile (by simp [sound]) rfl p t n)
    rintro r _ ⟨rfl, -, here⟩
    cases r with
    | none =>
      refine wp_ret ⟨good, ?_, state⟩
      intro fd below
      rcases Nat.lt_succ_iff_lt_or_eq.mp below with before | rfl
      · exact done fd before
      · exact here.symm
    | some f =>
      have used := good.refs.named slot (by omega) here.symm le_rfl
      apply wp_seq (good_fileclose good used)
      rintro _ u ⟨good', same⟩
      apply wp_mono (good_remove good' (f := f) slot (by omega : n < nofile)
        (by rw [same]; exact live') (by rw [same]; exact here.symm))
      rintro _ v ⟨good'', rfl⟩
      rw [add_drop] at good''
      refine ⟨good'', ?_, ?_⟩
      · intro fd below
        by_cases last : fd = n
        · simp [last, setOfile]
        · simp [setOfile, last, same, done fd (by omega)]
      · simp [setOfile, same, state]

end Processes

/-! Calls that have nothing to do with files. -/

/-- Files, pipes and descriptors, and which processes are dead. -/
def view (s : Machine ld) : (Nat → File) × List (Pipe ld) × (Nat → (Nat → Option Nat) × Prop) :=
  (s.file, s.pipes, fun p => ((s.proc p).ofile, dead (s.proc p).state))

theorem Refs.view {held : Nat → Int} {t : Machine ld} (refs : Refs held s)
    (same : view t = view s) : Refs held t := by
  simp only [FileRefs.view, Prod.mk.injEq] at same
  obtain ⟨file, pipes, procs⟩ := same
  refine refs.frame file pipes ?_ ?_
  · intro p
    exact congrArg Prod.fst (congrFun procs p)
  · intro p gone
    exact Or.inl (Eq.mp (congrArg Prod.snd (congrFun procs p)) gone)

/-- A program that leaves all of that alone, whatever it does otherwise. -/
abbrev Apart {α : Type} (m : MachineM ld α) : Prop :=
  Tracks (fun _ => True) (fun s t => view t = view s) sound m

theorem apartWalk : Walk (fun _ : Machine ld => True) (fun s t => view t = view s) sound where
  refl _ := rfl
  trans before after := after.trans before
  quiet {s proc} _ same := by
    refine ⟨?_, True.intro⟩
    unfold view
    simp only [Prod.mk.injEq, true_and]
    funext p
    have fields := same p
    simp only [quietView, Prod.mk.injEq, decide_eq_decide] at fields
    obtain ⟨-, -, -, ofile, unused, zombie⟩ := fields
    exact Prod.ext ofile (propext (or_congr unused zombie))

section Apart
variable {α : Type}

theorem apart_inKmem (m : Prog (Kmem ld) Stop α) : Apart (inKmem m) := fun _ _ =>
  wp_inKmem_any fun _ _ => ⟨rfl, True.intro⟩

theorem apart_modify {f : Machine ld → Machine ld} (same : ∀ s, view (f s) = view s) :
    Apart (modify f : MachineM ld PUnit) := fun s _ => (wp_modify ..).mpr ⟨same s, True.intro⟩

/-- A change of fields other than the descriptors and the state. -/
theorem apart_fields (p : Nat) {f : Proc ld → Proc ld}
    (same : ∀ proc, ((f proc).ofile, (f proc).state) = (proc.ofile, proc.state)) :
    Apart (modifyProc p f) := by
  apply apart_modify
  intro s
  unfold view
  simp only [Prod.mk.injEq, true_and]
  funext q
  split
  · have fields := same (s.proc q)
    simp only [Prod.mk.injEq] at fields
    rw [fields.1, fields.2]
  · rfl

theorem apart_kvmalloc : Apart (kvmalloc : MachineM ld Unit) :=
  apartWalk.bind (apart_inKmem _) fun _ => apart_modify fun _ => rfl

theorem apart_startother : Apart (startother : MachineM ld Unit) := by
  apply apartWalk.bind (apart_inKmem _)
  intro r
  cases r with
  | none => exact tracks_throw (by simp [sound])
  | some stack => exact apart_modify fun _ => rfl

theorem apart_growproc (p : Nat) (n : Int) : Apart (growproc p n : MachineM ld Int) := by
  have resized : ∀ (d : PgDir ld) (sz : Nat),
      Apart (modifyProc p (fun proc => { proc with pgdir := some d }) >>= fun _ =>
        if sz = 0 then pure (-1 : Int)
        else modifyProc p (fun proc => { proc with sz }) >>= fun _ => pure 0) := by
    intro d sz
    refine apartWalk.bind (apart_fields p ?_) fun _ => ?_
    · exact fun _ => rfl
    split
    · exact apartWalk.ret _
    · refine apartWalk.last (apart_fields p ?_) _
      exact fun _ => rfl
  apply tracks_read
  intro s
  split
  · exact tracks_throw (by simp [sound])
  · dsimp only
    split
    · exact apartWalk.bind (apart_inKmem _) fun r => resized r.1 r.2
    · split
      · exact apartWalk.bind (apart_inKmem _) fun r => resized r.1 r.2
      · exact apartWalk.ret _

theorem apart_sysSbrk (p : Nat) (n : Int) : Apart (sysSbrk p n : MachineM ld Int) := by
  apply tracks_read
  intro s
  split
  · refine apartWalk.last (apart_fields p ?_) _
    exact fun _ => rfl
  · apply apartWalk.bind (apart_growproc p n)
    intro r
    split <;> exact apartWalk.ret _

theorem apart_exec (p : Nat) (path : List UInt8) (file : Option Exec.Image)
    (argv : List (List UInt8)) : Apart (exec p path file argv : MachineM ld Int) := by
  cases file with
  | none => exact apartWalk.ret _
  | some img =>
    apply apartWalk.bind (apart_inKmem _)
    intro r
    cases r with
    | none => exact apartWalk.ret _
    | some image =>
      apply tracks_read
      intro s
      refine apartWalk.bind (apart_fields _ ?_) fun _ => ?_
      · exact fun _ => rfl
      exact apartWalk.last (apart_inKmem _) _

theorem apart_pageFault (p cr2 err : Nat) : Apart (pageFault p cr2 err : MachineM ld Unit) := by
  have killed : Apart (modifyProc p fun proc : Proc ld => { proc with killed := true }) :=
    apart_fields p fun _ => rfl
  apply tracks_read
  intro s
  dsimp only
  split
  · exact killed
  · split
    · exact killed
    · apply apartWalk.bind (apart_inKmem _)
      intro r
      cases r with
      | none => exact killed
      | some mem =>
        apply apartWalk.bind (apart_inKmem _)
        intro _
        split
        · exact tracks_throw (by simp [sound])
        · apply apartWalk.bind (apart_inKmem _)
          intro r
          refine apartWalk.bind (apart_fields _ ?_) fun _ => ?_
          · exact fun _ => rfl
          split
          · exact apartWalk.ret _
          · exact apartWalk.bind (apart_inKmem _) fun _ => killed

end Apart

section Lives
variable {pages : List (Frame ld)} {s : Machine ld} {p : Nat}

theorem refs_apart {m : MachineM ld α} {held : Nat → Int} (apart : Apart m)
    (refs : Refs held s) : wp m (fun _ t => Refs held t) sound s :=
  wp_mono (apart s True.intro) fun _ _ after => refs.view after.1

theorem refs_userinit (refs : Refs nobody s) (init : Bytes) (size : Nat) :
    wp (userinit init size) (fun _ t => Refs nobody t) sound s := by
  apply wp_seq (refs_allocproc refs)
  rintro r s1 ⟨refs1, -⟩
  cases r with
  | none => exact wp_fail (by simp [sound])
  | some p =>
    rw [wp_bind, wp_modify, wp_bind]
    apply wp_inKmem_any
    intro r k
    cases r with
    | none => exact wp_fail (by simp [sound])
    | some d =>
      rw [wp_bind]
      apply wp_inKmem_any
      intro r k'
      rw [wp_bind, wp_modify]
      apply wp_modifyProc
      refine refs1.frame rfl rfl ?_ ?_
      · intro q
        dsimp only
        split <;> rfl
      · intro q gone
        dsimp only at gone
        split at gone
        · simp [dead] at gone
        · exact Or.inl gone

theorem refs_exit (good : Good nobody s) (slot : p < nproc) (live : ¬ dead (s.proc p).state)
    (status : Int) : wp (exit p status) (fun _ t => Refs nobody t) sound s := by
  unfold exit
  rw [wp_read]
  split
  · exact wp_fail (by simp [sound])
  · apply wp_seq (good_closeFiles good slot live le_rfl)
    rintro _ s1 ⟨good1, closed, -⟩
    have none_ : ∀ fd, (s1.proc p).ofile fd = none := by
      intro fd
      rcases Nat.lt_or_ge fd nofile with below | above
      · exact closed fd below
      · exact good1.refs.closed p fd (Or.inr above)
    rw [wp_read]
    apply wp_seq (apartWalk.wakeup1 _ s1 True.intro)
    rintro _ s2 ⟨same2, -⟩
    apply wp_seq (apartWalk.reparent p s2 True.intro)
    rintro _ s3 ⟨same3, -⟩
    have refs3 := good1.refs.view (same3.trans same2)
    have none3 : (s3.proc p).ofile = (s1.proc p).ofile := by
      have procs := congrArg (fun v => (v.2.2 p).1) (same3.trans same2)
      exact procs
    split
    · exact wp_fail (by simp [sound])
    · rw [wp_bind]
      apply wp_inKmem_any
      intro r k
      apply wp_modifyProc
      refine refs3.frame rfl rfl ?_ ?_
      · intro q
        dsimp only
        split <;> rfl
      · intro q gone
        dsimp only at gone
        by_cases here : q = p
        · exact Or.inr (by rw [here, none3]; exact none_)
        · rw [if_neg here] at gone
          exact Or.inl gone

theorem refs_wait (refs : Refs nobody s) :
    wp (wait p) (fun _ t => Refs nobody t) sound s := by
  unfold wait
  rw [wp_read]
  cases found : firstSlot nproc fun q => (s.proc q).parent = some p ∧ (s.proc q).state = .zombie with
  | some q =>
    have zombie : (s.proc q).state = .zombie := by
      have test := (firstSlot_some found).2
      simp only [Bool.decide_and, Bool.and_eq_true, decide_eq_true_eq] at test
      exact test.2
    rw [wp_bind]
    apply wp_kfreeStack_any
    intro k
    rw [wp_bind]
    apply wp_inKmem_any
    intro _ k'
    rw [wp_bind]
    apply wp_modifyProc
    refine wp_ret (refs.frame rfl rfl ?_ ?_)
    · intro r
      dsimp only
      split <;> rfl
    · intro r gone
      dsimp only at gone
      by_cases here : r = q
      · exact Or.inl (by rw [here]; exact Or.inr zombie)
      · rw [if_neg here] at gone
        exact Or.inl gone
  | none =>
    dsimp only
    split
    · exact wp_ret refs
    · rw [wp_bind]
      apply wp_modifyProc
      refine wp_ret (refs_modifyProc refs p
        (f := fun proc => { proc with chan := some p, state := .sleeping }) rfl ?_)
      intro gone
      simp [dead] at gone

theorem refs_trap (own : Ownership.Owned pages s) (refs : Refs nobody s) (slot : p < nproc)
    (running : (s.proc p).state = .running) (user : Bool) (cr2 code : Nat) :
    wp (trap p user cr2 code) (fun _ t => Refs nobody t) sound s := by
  apply wp_seq (wp_also (apart_pageFault p cr2 _ s True.intro)
    (Ownership.owned_pageFault own slot running cr2 _))
  rintro _ t ⟨⟨same, -⟩, owned, still⟩
  rw [wp_read]
  split
  · apply wp_seq (refs_exit ⟨owned.pipes, refs.view same⟩ slot (by simp [dead, still]) _)
    intro _ u after
    exact wp_ret after
  · exact wp_ret (refs.view same)

/-- Every action keeps the counts exact and runs into neither panic. -/
theorem refs_perform (own : Ownership.Owned pages s) (refs : Refs nobody s) {act : Action}
    (ready : enabled s act) : wp (perform act) (fun _ t => Refs nobody t) sound s := by
  have good : Good nobody s := ⟨own.pipes, refs⟩
  have live : ∀ {p}, (s.proc p).state = .running → ¬ dead (s.proc p).state := by
    intro p running
    simp [dead, running]
  cases act with
  | kvmalloc => exact refs_apart apart_kvmalloc refs
  | startother => exact refs_apart apart_startother refs
  | userinit init size => exact refs_userinit refs init size
  | schedule p | yield p =>
    exact wp_mono (apartWalk.setState True.intro (by simp [ready.2]) (by simp [ready.2]))
      fun _ _ after => refs.view after.1
  | fork p => exact wp_ignore (refs_fork refs ready.1)
  | exec p path file argv => exact wp_ignore (refs_apart (apart_exec p path file argv) refs)
  | exit p status => exact refs_exit good ready.1 (live ready.2) status
  | wait p => exact wp_ignore (refs_wait refs)
  | kill p pid => exact wp_ignore (refs_apart (apartWalk.kill pid) refs)
  | sbrk p n => exact wp_ignore (refs_apart (apart_sysSbrk p n) refs)
  | fault p user cr2 code => exact wp_ignore (refs_trap own refs ready.1 ready.2.1 user cr2 code)
  | pipe p => exact wp_ignore (refs_sysPipe good ready.1 (live ready.2))
  | openFile p readable writable =>
    exact wp_ignore (refs_sysOpen good ready.1 (live ready.2) readable writable)
  | close p fd => exact wp_ignore (refs_sysClose good ready.1 (live ready.2) fd)
  | dup p fd => exact wp_ignore (refs_sysDup good ready.1 (live ready.2) fd)
  | dup2 p oldfd newfd => exact wp_ignore (refs_sysDup2 good ready.1 (live ready.2) oldfd newfd)

end Lives

/-! Whole runs. -/

structure Inv (pages : List (Frame ld)) (s : Machine ld) : Prop where
  owned : Ownership.Owned pages s
  bounded : Bounded s
  refs : Refs nobody s

theorem inv_step {pages : List (Frame ld)} {t : Machine ld} {act : Action} (inv : Inv pages s)
    (step : Guarded UserPointers.SbrkRoom Step s act t) : Inv pages t where
  owned := Ownership.owned_step inv.owned ⟨inv.bounded, step.2⟩
  bounded := (UserPointers.bounded_step_iff inv.bounded step.2).mpr step.1
  refs := by
    have after := wp_ok (refs_perform inv.owned inv.refs step.2.1) step.2.2
    exact after

theorem inv_powerOn {pages : List (Frame ld)} (distinct : pages.Nodup) (mem : Nat → Bytes) :
    Inv pages (powerOn pages mem) where
  owned := Ownership.owned_powerOn (distinct.map fun _ _ same => Frame.ext same) mem
  bounded := fun _ => Nat.zero_le _
  refs := by
    refine ⟨?_, fun _ _ => rfl, fun _ _ _ => rfl, ?_⟩
    · intro i
      simp [powerOn, slots, slotHits, nobody]
    · intro q member
      cases member

/-- The descriptors that name file `i`, among the processes that are in use. -/
def descriptors (s : Machine ld) (i : Nat) : Finset (Nat × Nat) :=
  (range nproc ×ˢ range nofile).filter fun x =>
    (s.proc x.1).state ≠ .unused ∧ (s.proc x.1).ofile x.2 = some i

theorem card_descriptors {held : Nat → Int} (refs : Refs held s) (i : Nat) :
    (descriptors s i).card = slots i s := by
  unfold descriptors slots slotHits
  rw [card_filter, sum_product]
  refine sum_congr rfl fun p _ => sum_congr rfl fun fd _ => ?_
  by_cases unused : (s.proc p).state = .unused
  · simp [unused, refs.closed p fd (Or.inl (Or.inl unused))]
  · simp [unused]

/-- An end of a pipe is open exactly when a file in use is that end. -/
theorem endOpen_iff (good : Good nobody s) {q : Pipe ld} (member : q ∈ s.pipes) (writable : Bool) :
    endOpen q writable = true ↔ ∃ i, 0 < (s.file i).ref ∧ (s.file i).type = .pipe ∧
      (s.file i).pipe = q.page.pa ∧ (s.file i).writable = writable := by
  constructor
  · intro isOpen
    obtain ⟨i, typed, page, way⟩ := good.refs.ends q member writable isOpen not_false
    refine ⟨i, ?_, typed, page, way⟩
    by_contra unused
    have none_ := good.refs.idle i (by omega)
    rw [typed] at none_
    cases none_
  · rintro ⟨i, -, typed, page, rfl⟩
    obtain ⟨r, inside, rpage, ropen⟩ := good.pipes.attached i typed
    rw [good.pipes.unique member inside (page.symm.trans rpage.symm)]
    exact ropen

/-- In every state of a run in which no `sbrk` moves a break above KERNBASE: the count of each
file is the number of descriptors that name it, unused processes have none, a file with count 0
is FD_NONE, the ends of a pipe are open exactly as long as there are files for them, and no
action can run into the panics of `filedup` and `fileclose`. -/
theorem file_refs_exact {pages : List (Frame ld)} (distinct : pages.Nodup) (mem : Nat → Bytes)
    {acts : List Action} {m : Machine ld}
    (run : Run (Guarded UserPointers.SbrkRoom Step) (powerOn pages mem) acts m) :
    (∀ i, (m.file i).ref = (descriptors m i).card) ∧
    (∀ p fd, (m.proc p).state = .unused → (m.proc p).ofile fd = none) ∧
    (∀ i, (m.file i).ref = 0 → (m.file i).type = .none) ∧
    (∀ q ∈ m.pipes,
      (q.readopen = true ↔ ∃ i, 0 < (m.file i).ref ∧ (m.file i).type = .pipe ∧
        (m.file i).pipe = q.page.pa ∧ (m.file i).writable = false) ∧
      (q.writeopen = true ↔ ∃ i, 0 < (m.file i).ref ∧ (m.file i).type = .pipe ∧
        (m.file i).pipe = q.page.pa ∧ (m.file i).writable = true)) ∧
    ∀ act, enabled m act → perform act m ≠ .error .filedup ∧ perform act m ≠ .error .fileclose := by
  have inv := run.preserves (Inv pages) (fun _ _ _ inv step => inv_step inv step)
    (inv_powerOn distinct mem)
  have good : Good nobody m := ⟨inv.owned.pipes, inv.refs⟩
  refine ⟨?_, fun p fd unused => inv.refs.closed p fd (Or.inl (Or.inl unused)), inv.refs.idle,
    fun q member => ⟨endOpen_iff good member false, endOpen_iff good member true⟩, ?_⟩
  · intro i
    have count := inv.refs.exact i
    rw [card_descriptors inv.refs]
    simp only [nobody] at count
    omega
  · intro act ready
    have spec := refs_perform inv.owned inv.refs ready
    exact ⟨fun stopped => (wp_stopped spec stopped).1 rfl, fun stopped => (wp_stopped spec stopped).2 rfl⟩

/-- The first process has a pipe, and the file of its write end has two descriptors. -/
theorem file_refs_exact_first_process :
    ∃ m, Run (Guarded UserPointers.SbrkRoom Step) Boot.smallMachine
        (Boot.booting ++ [.pipe 0, .dup 0 1, .sbrk 0 8192]) m ∧
      (m.proc 0).ofile 1 = some 1 ∧ (m.proc 0).ofile 2 = some 1 ∧
      ∀ i, (m.file i).ref = (descriptors m i).card := by
  obtain ⟨m, run, last, -, first, second⟩ := UserPointers.small_process_calls
  have guarded := UserPointers.room_of_bounded run last
  exact ⟨m, guarded, first, second, (file_refs_exact Boot.smallPages_nodup _ guarded).1⟩

end ColorXv6.Vm.FileRefs
