import ColorXv6.Fs.Calls

/-!
Path names. `namex` walks from directory to directory with one reference in hand; what it finds
is what the names in the directories say. On the way it can drop the last reference to an inode
that has no links.
-/
namespace ColorXv6.Fs.PathLookup
open Function Lib.LittleEndian Lib.Slots Lib.Wp Lib.SlotMap Lib.Holdings Param Layout BlockMap Inode
open Directory SysFile Regions Growth Writes Store CacheOps Truncate DirEntries Calls

/-- Inodes without links that are not in use may have been freed. -/
def Frees (used : Nat → Prop) (before after : Nat → Node) : Prop :=
  ∀ i, after i = before i ∨
    after i = freed (before i) ∧ (before i).type ≠ 0 ∧ (before i).nlink = 0 ∧ ¬ used i

section Frees
variable {used used' : Nat → Prop} {a b c : Nat → Node}

theorem Frees.refl (used : Nat → Prop) (a : Nat → Node) : Frees used a a := fun _ => .inl rfl

theorem Frees.trans (first : Frees used a b) (later : Frees used b c) : Frees used a c := by
  intro i
  rcases first i with same | ⟨gone, type, nlink, unused⟩
  · have later := later i
    rwa [same] at later
  · rcases later i with same | ⟨-, still, -⟩
    · exact .inr ⟨same.trans gone, type, nlink, unused⟩
    · rw [gone] at still
      exact absurd rfl still

theorem Frees.weaken (frees : Frees used a b) (fewer : ∀ i, used' i → used i) : Frees used' a b :=
  fun i => (frees i).imp id fun ⟨gone, type, nlink, unused⟩ =>
    ⟨gone, type, nlink, fun use => unused (fewer i use)⟩

theorem Frees.used_eq (frees : Frees used a b) {i : Nat} (use : used i) : b i = a i :=
  (frees i).resolve_right fun gone => gone.2.2.2 use

/-- What has been freed stays free. -/
theorem Frees.eq_of_trans (first : Frees used a b) (later : Frees used b c) (same : c = a) : b = a := by
  funext i
  rcases first i with here | ⟨gone, type, -⟩
  · exact here
  · rcases later i with next | ⟨-, still, -⟩
    · rw [same, gone] at next
      rw [next] at type
      exact absurd rfl type
    · rw [gone] at still
      exact absurd rfl still

theorem Frees.eq_of_type (frees : Frees used a b) {i : Nat} (type : (b i).type ≠ 0) : b i = a i :=
  (frees i).resolve_right fun gone => type (by rw [gone.1]; rfl)

/-- All directories are in order. -/
def Orderly (count : Nat) (nodes : Nat → Node) : Prop :=
  ∀ i, (nodes i).type = tDir → DirOk count (nodes i)

theorem Frees.orderly {count : Nat} (frees : Frees used a b) (orderly : Orderly count a) :
    Orderly count b := by
  intro i isDir
  have same := frees.eq_of_type (i := i) (by rw [isDir]; decide)
  rw [same] at isDir ⊢
  exact orderly i isDir

end Frees

/-- What looking up a name does besides: nothing but the cache changes, unless an inode was
freed. -/
structure Walked (refs : Nat → Int) (s t : Fs) : Prop extends Frame refs s t where
  frees : Frees (Used refs s) (node s) (node t)
  quiet : node t = node s → Quiet refs s t

section Walked
variable {refs refs' : Nat → Int} {s t u : Fs}

theorem walked_of_quiet (quiet : Quiet refs s t) : Walked refs s t :=
  ⟨quiet.toFrame, quiet.node_eq ▸ .refl _ _, fun _ => quiet⟩

theorem walked_of_released {ip i : Nat} (released : Released refs s t ip i) : Walked refs s t := by
  cases released with
  | kept quiet _ => exact walked_of_quiet quiet
  | freed frame nodes type nlink unused logs =>
    refine ⟨frame, fun j => ?_, fun same => ?_⟩
    · rw [nodes]
      by_cases here : j = i
      · rw [here, update_self]
        exact .inr ⟨rfl, type, nlink, unused⟩
      · rw [update_of_ne here]
        exact .inl rfl
    · have here := congrFun (nodes.symm.trans same) i
      rw [update_self] at here
      rw [← here] at type
      exact absurd rfl type

theorem Walked.trans (first : Walked refs s t) (later : Walked refs t u) : Walked refs s u := by
  have used : Used refs t = Used refs s := funext fun i => propext (Used.congr first.toFrame)
  have frees := later.frees
  rw [used] at frees
  refine ⟨first.toFrame.trans later.toFrame, first.frees.trans frees, fun same => ?_⟩
  have between := first.frees.eq_of_trans frees same
  exact (first.quiet between).trans (later.quiet (same.trans between.symm))

theorem Walked.weaken (walked : Walked refs s t) (fewer : ∀ k, 0 < refs' k → 0 < refs k) :
    Walked refs' s t :=
  ⟨walked.toFrame.weaken fewer, walked.frees.weaken fun _ ⟨k, ref, here⟩ => ⟨k, fewer k ref, here⟩,
    fun same => (walked.quiet same).weaken fewer⟩

end Walked

/-- Inode `i` has a name in some directory. -/
def Named (nodes : Nat → Node) (i : Nat) : Prop :=
  ∃ d key, (nodes d).type = tDir ∧ (dir (nodes d)).get key = some i

/-- What a path is the name of, from directory `i` on. -/
def resolve (nodes : Nat → Node) (parent : Bool) (i : Nat) (path : List UInt8) (name : Bytes) :
    Nat → Option (Nat × Bytes)
  | 0 => none
  | fuel + 1 =>
    match skipelem path with
    | none => if parent then none else some (i, name)
    | some (name, path) =>
      if (nodes i).type ≠ tDir then none
      else if parent ∧ path = [] then some (i, name)
      else
        match (dir (nodes i)).get (nameOf name) with
        | none => none
        | some j => resolve nodes parent j path name fuel

section Walk
variable {refs : Nat → Int} {s : Fs} {ip : Nat} {E : Halt → Prop}

/-- Where a walk has ended. -/
structure Arrived (refs : Nat → Int) (E : Halt → Prop) (parent : Bool) (s t : Fs) (ip : Nat) : Prop where
  mid : Mid (add refs ip) ∅ t
  walked : Walked refs s t
  dir : parent = true → (node t (t.inode ip).inum).type = tDir
  type : (node t (t.inode ip).inum).type = 0 → E .ilockNoType

/-- The result of a walk. -/
def Found (refs : Nat → Int) (E : Halt → Prop) (parent : Bool) (s : Fs) (r : Option (Nat × Bytes))
    (expected : Option (Nat × Bytes)) (t : Fs) : Prop :=
  (match r with
    | none => Mid refs ∅ t ∧ Walked refs s t
    | some (ip, _) => Arrived refs E parent s t ip) ∧
  (node t = node s → expected = r.map fun e => ((t.inode e.1).inum, e.2))

theorem skipelem_length {path rest : List UInt8} {name : Bytes}
    (elem : skipelem path = some (name, rest)) : rest.length < path.length := by
  unfold skipelem at elem
  dsimp only at elem
  split at elem
  · cases elem
  · rename_i nonempty
    rw [← (Prod.mk.inj (Option.some.inj elem)).2]
    have skipped := (List.dropWhile_sublist (fun c => decide (c = slash)) (l := path)).length_le
    have after := (List.dropWhile_sublist (fun c => decide (c = slash))
      (l := (path.dropWhile (· = slash)).dropWhile (· ≠ slash))).length_le
    obtain ⟨c, tail, here⟩ := List.exists_cons_of_ne_nil nonempty
    -- what is left starts with a byte that is no slash
    have first : decide (c = slash) = false := by
      have head := List.head?_dropWhile_not (fun c => decide (c = slash)) path
      rw [here] at head
      simpa using head
    have element : ((path.dropWhile (· = slash)).dropWhile (· ≠ slash)).length ≤ tail.length := by
      rw [here, List.dropWhile_cons_of_pos (by simpa using first)]
      exact (List.dropWhile_sublist _).length_le
    have whole := congrArg List.length here
    rw [List.length_cons] at whole
    omega

/-- The type of a locked inode is the one on the disk. -/
theorem Mid.din_type {locks : Finset Nat} (mid : Mid refs locks s) (held : ip ∈ locks) :
    (s.inode ip).din.type = (node s (s.inode ip).inum).type := by
  rw [mid.good.din_eq (mid.mine ip held)]
  rfl

theorem Found.walked {t : Fs} {parent : Bool} {r expected : Option (Nat × Bytes)}
    (found : Found refs E parent s r expected t) : Walked refs s t := by
  cases r with
  | none => exact found.1.2
  | some e => exact found.1.walked

/-- A walk that goes on where an earlier one stopped. -/
theorem Found.after {t u : Fs} {parent : Bool} {r expected expected' : Option (Nat × Bytes)}
    (found : Found refs E parent t r expected' u) (walked : Walked refs s t)
    (same : node t = node s → expected = expected') : Found refs E parent s r expected u := by
  have later := found.walked
  obtain ⟨found, result⟩ := found
  have all := walked.trans later
  refine ⟨?_, fun unchanged => ?_⟩
  · cases r with
    | none => exact ⟨found.1, all⟩
    | some e => exact ⟨found.mid, all, found.dir, found.type⟩
  · have frees := later.frees
    rw [show Used refs t = Used refs s from funext fun i => propext (Used.congr walked.toFrame)] at frees
    have between := walked.frees.eq_of_trans frees unchanged
    exact (same between).trans (result (unchanged.trans between.symm))

/-- The end of a walk without a result. -/
theorem wp_leave {t : Fs} {parent : Bool} {expected : Option (Nat × Bytes)}
    (mid : Mid (add refs ip) {ip} t) (walked : Walked refs s t)
    (same : node t = node s → expected = none) :
    wp (iunlockput ip >>= fun _ => pure none) (fun r u => Found refs E parent s r expected u) E t := by
  apply wp_seq (mid.wp_iunlockput (Finset.mem_singleton_self ip))
  rintro _ u ⟨mid, released⟩
  rw [drop_add] at mid released
  rw [Finset.erase_singleton] at mid
  have later := walked_of_released released
  refine wp_ret ⟨⟨mid, walked.trans later⟩, fun unchanged => same ?_⟩
  have frees := later.frees
  rw [show Used refs t = Used refs s from funext fun i => propext (Used.congr walked.toFrame)] at frees
  exact walked.frees.eq_of_trans frees unchanged

theorem wp_namexFrom (parent : Bool) (path : List UInt8) (name : Bytes) (fuel : Nat)
    (nonneg : ∀ k, 0 ≤ refs k) (mid : Mid (add refs ip) ∅ s) (orderly : Orderly s.sb.ninodes (node s))
    (enough : path.length < fuel)
    (full : freeSlots refs < 2 → E .igetNoInodes)
    (start : (node s (s.inode ip).inum).type = 0 → E .ilockNoType)
    (noType : ∀ nodes j, Frees (Used refs s) (node s) nodes → Named nodes j → (nodes j).type = 0 →
      E .ilockNoType) :
    wp (namexFrom parent ip path name fuel) (fun r t => Found refs E parent s r
      (resolve (node s) parent (s.inode ip).inum path name fuel) t) E s := by
  induction fuel generalizing ip path name s with
  | zero => exact absurd enough (Nat.not_lt_zero _)
  | succ fuel ih =>
    have ref := pos_add_self (nonneg ip)
    rw [namexFrom, resolve]
    cases elem : skipelem path with
    | none =>
      cases parent with
      | true =>
        rw [if_pos rfl]
        apply wp_seq (mid.wp_iput ref fun held => absurd held (Finset.notMem_empty ip))
        rintro _ t ⟨mid, released⟩
        rw [drop_add] at mid released
        exact wp_ret ⟨⟨mid, walked_of_released released⟩, fun _ => rfl⟩
      | false =>
        rw [if_neg Bool.false_ne_true]
        refine wp_ret ⟨⟨mid, walked_of_quiet (.refl _ _), nofun, start⟩, fun _ => ?_⟩
        exact if_neg Bool.false_ne_true
    | some elem' =>
      obtain ⟨name, rest⟩ := elem'
      have shorter := skipelem_length elem
      dsimp only
      apply wp_seq (mid.wp_ilock ref start fun held => absurd held (Finset.notMem_empty ip))
      rintro _ t ⟨-, mid, quiet, type⟩
      rw [insert_empty_eq] at mid
      have held := Finset.mem_singleton_self ip
      have here : (t.inode ip).inum = (s.inode ip).inum := quiet.inum ip ref
      have kind := Mid.din_type mid held
      have walked : Walked refs s t := walked_of_quiet (quiet.weaken fun _ => add_pos)
      rw [here, quiet.node_eq] at kind
      rw [wp_read, kind]
      split
      · exact wp_leave mid walked fun _ => rfl
      · rename_i dir
        rw [Decidable.not_not] at dir
        split
        · rename_i last
          apply wp_seq (mid.wp_iunlock held)
          rintro _ u ⟨mid, quiet'⟩
          rw [Finset.erase_singleton] at mid
          have both := quiet.trans quiet'
          have there : (u.inode ip).inum = (s.inode ip).inum := both.inum ip ref
          have dir' : (node u (u.inode ip).inum).type = tDir := by rw [both.node_eq, there, dir]
          refine wp_ret ⟨⟨mid, walked_of_quiet (both.weaken fun _ => add_pos), fun _ => dir',
            fun none => ?_⟩, fun _ => ?_⟩
          · rw [dir'] at none
            exact absurd none (by decide)
          · rw [Option.map_some, there]
        · have dir' : (node t (s.inode ip).inum).type = tDir := by rw [quiet.node_eq, dir]
          have ok : DirOk t.sb.ninodes (node t (s.inode ip).inum) := by
            rw [quiet.node_eq, quiet.sb]
            exact orderly _ dir
          apply wp_seq (mid.wp_dirlookup held here dir' ok name fun none => full (by
            have := freeSlots_add refs ip
            omega))
          rintro r u (⟨rfl, rfl, absent⟩ | ⟨next, j, i, rfl, -, bound, mid, there, quiet'⟩)
          · rw [quiet.node_eq] at absent
            exact wp_leave mid walked fun _ => by rw [absent]
          · rw [quiet.node_eq] at bound
            apply wp_seq (mid.wp_iunlockput held)
            rintro _ v ⟨mid, released⟩
            rw [drop_add_swap, drop_add] at mid released
            rw [Finset.erase_singleton] at mid
            -- the next inode is in use, so it was not freed
            have later := walked_of_released released
            have next_ref := pos_add_self (nonneg next)
            have there' : (v.inode next).inum = i := (later.inum next next_ref).trans there
            have here' : node v i = node s i := by
              rw [later.frees.used_eq ⟨next, next_ref, there⟩, quiet'.node_eq, quiet.node_eq]
            have walked := (walked.trans (walked_of_quiet (quiet'.weaken fun _ => add_pos))).trans
              (later.weaken fun _ => add_pos)
            have used : Used refs v = Used refs s :=
              funext fun i => propext (Used.congr walked.toFrame)
            have orderly : Orderly v.sb.ninodes (node v) := walked.sb ▸ walked.frees.orderly orderly
            have spec := ih rest name mid orderly (by omega) (fun none => ?_)
              fun nodes j frees named none => ?_
            · apply wp_mono spec
              intro r w found
              refine found.after walked fun same => ?_
              rw [bound, there', same]
            · rw [there', here'] at none
              exact noType (node s) i (.refl _ _) ⟨_, _, dir, bound⟩ none
            · rw [used] at frees
              exact noType nodes j (walked.frees.trans frees) named none

end Walk

/-- An inode without links is in use. -/
def NoOrphans (refs : Nat → Int) (s : Fs) : Prop :=
  ∀ i, (node s i).type ≠ 0 → (node s i).nlink = 0 → Used refs s i

/-- Also, every inode that has a name or is in use is allocated. -/
structure Solid (refs : Nat → Int) (s : Fs) : Prop where
  kept : NoOrphans refs s
  named : ∀ i, Named (node s) i → (node s i).type ≠ 0
  used : ∀ i, Used refs s i → (node s i).type ≠ 0
  root : (node s rootIno).type ≠ 0

/-- What a walk needs not to stop the kernel, or how it may stop it. -/
structure CanWalk (refs : Nat → Int) (E : Halt → Prop) (p : Nat) (s : Fs) : Prop where
  nonneg : ∀ k, 0 ≤ refs k
  orderly : Orderly s.sb.ninodes (node s)
  root : rootIno < s.sb.ninodes
  cwd : ∀ c, (s.proc p).cwd = some c → 0 < refs c
  noCwd : (s.proc p).cwd = none → E .nullPointer
  full : freeSlots refs < 2 → E .igetNoInodes
  solid : E .ilockNoType ∨ Solid refs s

section Namex
variable {refs : Nat → Int} {s t : Fs} {p : Nat} {E : Halt → Prop}

/-- Where nothing is to be freed, nothing is. -/
theorem NoOrphans.frees_eq {nodes : Nat → Node} (kept : NoOrphans refs s)
    (frees : Frees (Used refs s) (node s) nodes) : nodes = node s := by
  funext i
  rcases frees i with same | ⟨-, type, nlink, unused⟩
  · exact same
  · exact absurd (kept i type nlink) unused

theorem CanWalk.noType (can : CanWalk refs E p s) (nodes : Nat → Node) (j : Nat)
    (frees : Frees (Used refs s) (node s) nodes) (named : Named nodes j) (none : (nodes j).type = 0) :
    E .ilockNoType := by
  rcases can.solid with stop | solid
  · exact stop
  · rw [solid.kept.frees_eq frees] at named none
    exact absurd none (solid.named j named)

/-- Where a path starts. -/
def origin (s : Fs) (p : Nat) (path : List UInt8) : Nat :=
  if path.head? = some slash then rootIno
  else
    match (s.proc p).cwd with
    | none => 0
    | some cwd => (s.inode cwd).inum

/-- What a path of process `p` is the name of. -/
def lookup (s : Fs) (p : Nat) (path : List UInt8) (parent : Bool) : Option (Nat × Bytes) :=
  resolve (node s) parent (origin s p path) path zeroBlock (path.length + 1)

/-- The walk from an entry that was taken for it. -/
theorem wp_walk {ip i : Nat} (path : List UInt8) (parent : Bool) (can : CanWalk refs E p s)
    (mid : Mid (add refs ip) ∅ t) (quiet : Quiet refs s t) (here : (t.inode ip).inum = i)
    (start : (node s i).type = 0 → E .ilockNoType) :
    wp (namexFrom parent ip path zeroBlock (path.length + 1)) (fun r u => Found refs E parent s r
      (resolve (node s) parent i path zeroBlock (path.length + 1)) u) E t := by
  have nodes := quiet.node_eq
  have used : Used refs t = Used refs s := funext fun i => propext (Used.congr quiet.toFrame)
  have spec := wp_namexFrom (E := E) parent path zeroBlock (path.length + 1) can.nonneg mid
    (by rw [nodes, quiet.sb]; exact can.orderly) (Nat.lt_succ_self _) can.full
    (fun none => ?_) fun nodes' j frees => ?_
  · apply wp_mono spec
    intro r u found
    refine found.after (walked_of_quiet quiet) fun _ => ?_
    rw [here, nodes]
  · rw [here, nodes] at none
    exact start none
  · rw [used, nodes] at frees
    exact can.noType nodes' j frees

theorem wp_namex (path : List UInt8) (parent : Bool) (mid : Mid refs ∅ s) (can : CanWalk refs E p s) :
    wp (namex p path parent) (fun r t => Found refs E parent s r (lookup s p path parent) t) E s := by
  unfold namex lookup origin
  rw [wp_read]
  split
  · apply wp_seq (mid.wp_iget can.root fun none => can.full (by omega))
    rintro ip t ⟨mid, here, quiet⟩
    refine wp_walk path parent can mid quiet here fun none => ?_
    exact can.solid.elim id fun solid => absurd none solid.root
  · cases cwd : (s.proc p).cwd with
    | none => exact wp_fail (can.noCwd cwd)
    | some c =>
      have ref := can.cwd c cwd
      apply wp_seq (mid.wp_idup ref)
      rintro ip t ⟨rfl, mid, quiet⟩
      replace quiet : Quiet refs s t := quiet.weaken fun _ => add_pos
      refine wp_walk path parent can mid quiet (quiet.inum ip ref) fun none => ?_
      exact can.solid.elim id fun solid => absurd none (solid.used _ ⟨ip, ref, rfl⟩)

end Namex

end ColorXv6.Fs.PathLookup
