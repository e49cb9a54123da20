import ColorXv6.Fs.DirMap
import ColorXv6.Fs.PathLookup
import Mathlib.Data.List.DropRight

/-!
What a path means, said without the loop of `namex`: the path is cut at the slashes, and the
directories are asked for one component after the other.
-/
namespace ColorXv6.Fs.PathNames
open Lib.LittleEndian Lib.Wp Lib.SlotMap Lib.Holdings Param Layout BlockMap Inode Directory Regions
open Store DirEntries DirMap Calls PathLookup

/-- The components of a path, each cut to the length of a name. -/
def components (path : List UInt8) : List (List UInt8) :=
  ((path.splitOn slash).filter (· ≠ [])).map (List.take dirSiz)

/-- The inode that `keys` lead to from inode `i`. -/
def walk (nodes : Nat → Node) (i : Nat) : List (List UInt8) → Option Nat
  | [] => some i
  | key :: rest =>
    if (nodes i).type = tDir then ((dir (nodes i)).get key).bind fun j => walk nodes j rest else none

/-- The directory that holds the last of `keys`, and that one. -/
def walkParent (nodes : Nat → Node) (i : Nat) (keys : List (List UInt8)) : Option (Nat × List UInt8) :=
  keys.getLast?.bind fun last => (walk nodes i keys.dropLast).bind fun d =>
    if (nodes d).type = tDir then some (d, last) else none

section Walk
variable {nodes : Nat → Node} {i : Nat}

theorem walk_append (before after : List (List UInt8)) :
    walk nodes i (before ++ after) = (walk nodes i before).bind fun d => walk nodes d after := by
  induction before generalizing i with
  | nil => rfl
  | cons key rest ih =>
    rw [List.cons_append, walk, walk]
    split
    · cases (dir (nodes i)).get key with
      | none => rfl
      | some j => exact ih
    · rfl

/-- A walk fails where a component is not in a directory. -/
theorem walk_eq_none (keys : List (List UInt8)) :
    walk nodes i keys = none ↔ ∃ before key after d, keys = before ++ key :: after ∧
      walk nodes i before = some d ∧ ((nodes d).type ≠ tDir ∨ (dir (nodes d)).get key = none) := by
  constructor
  · intro stuck
    induction keys generalizing i with
    | nil => cases stuck
    | cons key rest ih =>
      rw [walk] at stuck
      split at stuck
      · rename_i isDir
        cases found : (dir (nodes i)).get key with
        | none => exact ⟨[], key, rest, i, rfl, rfl, .inr found⟩
        | some j =>
          rw [found] at stuck
          obtain ⟨before, key', after, d, rfl, there, fails⟩ := ih stuck
          refine ⟨key :: before, key', after, d, rfl, ?_, fails⟩
          rw [walk, if_pos isDir, found]
          exact there
      · rename_i other
        exact ⟨[], key, rest, i, rfl, rfl, .inl other⟩
  · rintro ⟨before, key, after, d, rfl, there, fails⟩
    rw [walk_append, there, Option.bind_some, walk]
    rcases fails with other | missing
    · exact if_neg other
    · rw [missing]
      exact ite_self _

theorem walkParent_eq_none (keys : List (List UInt8)) :
    walkParent nodes i keys = none ↔ keys = [] ∨ walk nodes i keys.dropLast = none ∨
      ∃ d, walk nodes i keys.dropLast = some d ∧ (nodes d).type ≠ tDir := by
  unfold walkParent
  cases last : keys.getLast? with
  | none => simp [List.getLast?_eq_none_iff.mp last]
  | some key =>
    have some : keys ≠ [] := by
      rintro rfl
      cases last
    cases walk nodes i keys.dropLast with
    | none => simp
    | some d => simp [some]

/-- The parent of a longer path is looked for from its first component on. -/
theorem walkParent_cons (key : List UInt8) {rest : List (List UInt8)} (more : rest ≠ []) :
    walkParent nodes i (key :: rest) = if (nodes i).type = tDir then
      ((dir (nodes i)).get key).bind fun j => walkParent nodes j rest else none := by
  have ends := List.getLast?_eq_some_getLast more
  unfold walkParent
  rw [List.getLast?_cons, ends, Option.getD_some, Option.bind_some, List.dropLast_cons_of_ne_nil more,
    walk]
  split
  · cases (dir (nodes i)).get key <;> rfl
  · rfl

end Walk

section Components
variable {path rest : List UInt8} {name : Bytes}

theorem components_nil : components [] = [] := rfl

theorem components_slash (path : List UInt8) : components (slash :: path) = components path := by
  unfold components
  rw [List.splitOn_cons_eq_if_modifyHead, if_pos (beq_self_eq_true slash),
    List.filter_cons_of_neg (by simp)]

theorem components_skip (path : List UInt8) :
    components (path.dropWhile (· = slash)) = components path := by
  induction path with
  | nil => rfl
  | cons c path ih =>
    by_cases here : c = slash
    · rw [List.dropWhile_cons_of_pos (by simpa using here), ih, here, components_slash]
    · rw [List.dropWhile_cons_of_neg (by simpa using here)]

/-- An element up to the end of the path or a slash. -/
theorem components_elem {elem : List UInt8} (some : elem ≠ []) (plain : slash ∉ elem)
    (ends : rest = [] ∨ rest.head? = Option.some slash) :
    components (elem ++ rest) = elem.take dirSiz :: components rest := by
  unfold components
  rcases ends with rfl | first
  · rw [List.append_nil, List.splitOn_eq_singleton plain, List.filter_cons_of_pos (by simpa using some)]
    rfl
  · obtain ⟨after, rfl⟩ := List.head?_eq_some_iff.mp first
    rw [List.splitOn_append_cons_self_of_not_mem plain,
      List.filter_cons_of_pos (by simpa using some), List.map_cons]
    exact congrArg _ (components_slash after).symm

theorem components_of_skipelem_none (none : skipelem path = none) : components path = [] := by
  unfold skipelem at none
  dsimp only at none
  split at none
  · rename_i empty
    rw [← components_skip, empty, components_nil]
  · cases none

/-- `skipelem` takes off the first component. -/
theorem components_of_skipelem (terminated : 0 ∉ path) (elem : skipelem path = some (name, rest)) :
    components path = nameOf name :: components rest ∧ 0 ∉ rest ∧
      rest.dropWhile (· = slash) = rest := by
  unfold skipelem at elem
  dsimp only at elem
  split at elem
  · cases elem
  · rename_i nonempty
    obtain ⟨rfl, rfl⟩ := Prod.mk.inj (Option.some.inj elem)
    have whole := components_skip path
    have sub : ∀ c ∈ path.dropWhile (· = slash), c ∈ path := fun c inside =>
      (List.dropWhile_sublist _).subset inside
    have head := List.head?_dropWhile_not (fun c => decide (c = slash)) path
    generalize path.dropWhile (· = slash) = start at *
    have first : start.takeWhile (· ≠ slash) ≠ [] := by
      obtain ⟨c, tail, rfl⟩ := List.exists_cons_of_ne_nil nonempty
      rw [List.takeWhile_cons_of_pos (by simpa using head)]
      exact List.cons_ne_nil _ _
    have ends : start.dropWhile (· ≠ slash) = [] ∨ (start.dropWhile (· ≠ slash)).head? = some slash := by
      have stop := List.head?_dropWhile_not (fun c => decide (c ≠ slash)) start
      cases after : start.dropWhile (· ≠ slash) with
      | nil => exact .inl rfl
      | cons c tail =>
        rw [after] at stop
        exact .inr (congrArg some (by simpa using stop))
    have plain : slash ∉ start.takeWhile (· ≠ slash) := fun inside => by
      simpa using List.all_eq_true.mp List.all_takeWhile slash inside
    refine ⟨?_, fun zero => ?_, List.dropWhile_idempotent _ _⟩
    · rw [nameOf_nameBytes, components_skip, ← whole, ← components_elem first plain ends,
        List.takeWhile_append_dropWhile]
      exact fun zero => terminated (sub _ ((List.takeWhile_sublist _).subset zero))
    · exact terminated (sub _ ((List.dropWhile_sublist _).subset ((List.dropWhile_sublist _).subset zero)))

/-- Nothing is left of a path when its last component is taken off. -/
theorem rest_eq_nil (terminated : 0 ∉ path) (elem : skipelem path = some (name, rest)) :
    rest = [] ↔ components rest = [] := by
  obtain ⟨-, terminated', skipped⟩ := components_of_skipelem terminated elem
  refine ⟨fun empty => by rw [empty, components_nil], fun none => ?_⟩
  cases next : skipelem rest with
  | none =>
    unfold skipelem at next
    dsimp only at next
    rw [skipped] at next
    split at next
    · assumption
    · cases next
  | some e =>
    rw [(components_of_skipelem terminated' next).1] at none
    cases none

end Components

section Resolve
variable {nodes : Nat → Node} {i : Nat} {path : List UInt8} {name : Bytes} {fuel : Nat}

/-- A turn that goes on: the component is looked for in directory `i`. -/
theorem resolve_more {α : Type} {g : Nat × Bytes → α} {next : Nat → Option α} {parent : Bool}
    {key : Bytes} {rest : List UInt8} (elem : skipelem path = some (key, rest))
    (more : ¬ (parent = true ∧ rest = []))
    (later : ∀ j, (resolve nodes parent j rest key fuel).map g = next j) :
    (resolve nodes parent i path name (fuel + 1)).map g =
      if (nodes i).type = tDir then ((dir (nodes i)).get (nameOf key)).bind next else none := by
  rw [resolve, elem]
  dsimp only
  by_cases isDir : (nodes i).type = tDir
  · rw [if_neg (not_not_intro isDir), if_neg more, if_pos isDir]
    cases (dir (nodes i)).get (nameOf key) with
    | none => rfl
    | some j => exact later j
  · rw [if_pos isDir, if_neg isDir]
    rfl

theorem resolve_eq_walk (terminated : 0 ∉ path) (enough : path.length < fuel) :
    (resolve nodes false i path name fuel).map Prod.fst = walk nodes i (components path) := by
  induction fuel generalizing i path name with
  | zero => exact absurd enough (Nat.not_lt_zero _)
  | succ fuel ih =>
    cases elem : skipelem path with
    | none =>
      rw [resolve, elem, components_of_skipelem_none elem]
      rfl
    | some e =>
      obtain ⟨keys, terminated', -⟩ := components_of_skipelem terminated elem
      have shorter := skipelem_length elem
      rw [keys]
      exact resolve_more elem (by simp) fun j => ih terminated' (by omega)

theorem resolve_eq_walkParent (terminated : 0 ∉ path) (enough : path.length < fuel) :
    (resolve nodes true i path name fuel).map (fun e => (e.1, nameOf e.2)) =
      walkParent nodes i (components path) := by
  induction fuel generalizing i path name with
  | zero => exact absurd enough (Nat.not_lt_zero _)
  | succ fuel ih =>
    cases elem : skipelem path with
    | none =>
      rw [resolve, elem, components_of_skipelem_none elem]
      rfl
    | some e =>
      obtain ⟨keys, terminated', -⟩ := components_of_skipelem terminated elem
      have shorter := skipelem_length elem
      have ends := rest_eq_nil terminated elem
      rw [keys]
      by_cases last : e.2 = []
      · rw [ends.mp last, resolve, elem]
        simp only [last, and_self, if_true, walkParent, List.getLast?_singleton, Option.bind_some,
          List.dropLast_singleton, walk]
        split <;> simp_all
      · rw [walkParent_cons _ (mt ends.mpr last)]
        exact resolve_more elem (fun both => last both.2) fun j => ih terminated' (by omega)

end Resolve

/-- A file system between two calls, in good order, and a process that has a working directory. -/
structure Ready (s : Fs) (p : Nat) : Prop where
  mid : Mid (fun k => (s.inode k).ref) ∅ s
  orderly : Orderly s.sb.ninodes (node s)
  solid : Solid (fun k => (s.inode k).ref) s
  root : rootIno < s.sb.ninodes
  cwd : ∃ c, (s.proc p).cwd = some c ∧ 0 < (s.inode c).ref

/-- A call came back with a reference to `r`, or with none: no other count has changed, no lock is
held and the tree is as it was. -/
structure Returned (s t : Fs) (r : Option Nat) : Prop where
  ref : ∀ k, (t.inode k).ref = (s.inode k).ref + if r = some k then 1 else 0
  inum : ∀ k, 0 < (s.inode k).ref → (t.inode k).inum = (s.inode k).inum
  unlocked : ∀ k, (t.inode k).locked = false
  node : node t = node s

section Namei
variable {s t : Fs} {p : Nat}

/-- The one way in which a lookup can stop the kernel: the inode cache is as good as full. -/
def CacheFull (s : Fs) (h : Halt) : Prop :=
  h = .igetNoInodes ∧ freeSlots (fun k => (s.inode k).ref) < 2

theorem Ready.canWalk (ready : Ready s p) : CanWalk (fun k => (s.inode k).ref) (CacheFull s) p s where
  nonneg := ready.mid.nonneg
  orderly := ready.orderly
  root := ready.root
  cwd := by
    obtain ⟨c, cwd, ref⟩ := ready.cwd
    intro c' cwd'
    rw [cwd] at cwd'
    exact Option.some.inj cwd' ▸ ref
  noCwd := by
    obtain ⟨c, cwd, -⟩ := ready.cwd
    intro none
    rw [cwd] at none
    cases none
  full := fun few => ⟨rfl, few⟩
  solid := .inr ready.solid

theorem Ready.returned (ready : Ready s p) {parent : Bool} {r expected : Option (Nat × Bytes)}
    (found : Found (fun k => (s.inode k).ref) (CacheFull s) parent s r expected t) :
    Returned s t (r.map Prod.fst) ∧ expected = r.map fun e => ((t.inode e.1).inum, e.2) := by
  have walked := found.walked
  have same := ready.solid.kept.frees_eq walked.frees
  refine ⟨?_, found.2 same⟩
  cases r with
  | none =>
    have mid := found.1.1
    refine ⟨fun k => ?_, walked.inum, fun k => mid.unlocked (Finset.notMem_empty k), same⟩
    rw [mid.count, Option.map_none, if_neg nofun, add_zero]
  | some e =>
    have mid := found.1.mid
    refine ⟨fun k => ?_, walked.inum, fun k => mid.unlocked (Finset.notMem_empty k), same⟩
    rw [mid.count, add, Option.map_some]
    simp only [Option.some_inj, eq_comm]

/-- Path names resolve component by component. -/
theorem path_is_walk (s : Fs) (p : Nat) (path : List UInt8) (ready : Ready s p) (terminated : 0 ∉ path) :
    wp (namei p path) (fun r t => Returned s t r ∧
      r.map (fun ip => (t.inode ip).inum) = walk (node s) (origin s p path) (components path) ∧
      (r = none ↔ ∃ before key after d, components path = before ++ key :: after ∧
        walk (node s) (origin s p path) before = some d ∧
        ((node s d).type ≠ tDir ∨ (dir (node s d)).get key = none))) (CacheFull s) s ∧
    wp (nameiparent p path) (fun r t => Returned s t (r.map Prod.fst) ∧
      r.map (fun e => ((t.inode e.1).inum, nameOf e.2)) =
        walkParent (node s) (origin s p path) (components path) ∧
      (r = none ↔ components path = [] ∨
        walk (node s) (origin s p path) (components path).dropLast = none ∨
        ∃ d, walk (node s) (origin s p path) (components path).dropLast = some d ∧
          (node s d).type ≠ tDir)) (CacheFull s) s := by
  have can := ready.canWalk
  constructor
  · unfold namei
    apply wp_seq (wp_namex path false ready.mid can)
    intro r t found
    obtain ⟨returned, result⟩ := ready.returned found
    have walked := @resolve_eq_walk (node s) (origin s p path) path zeroBlock _ terminated
      (Nat.lt_succ_self _)
    rw [← lookup, result, Option.map_map] at walked
    refine wp_ret ⟨returned, ?_, ?_⟩
    · rw [← walked, Option.map_map]
      rfl
    · rw [← walk_eq_none, ← walked, Option.map_eq_none_iff, Option.map_eq_none_iff]
  · apply wp_mono (wp_namex path true ready.mid can)
    intro r t found
    obtain ⟨returned, result⟩ := ready.returned found
    have walked := @resolve_eq_walkParent (node s) (origin s p path) path zeroBlock _ terminated
      (Nat.lt_succ_self _)
    rw [← lookup, result, Option.map_map] at walked
    refine ⟨returned, walked, ?_⟩
    rw [← walkParent_eq_none, ← walked, Option.map_eq_none_iff]

section Rooted
variable {more : Nat}

theorem rooted_dir {i : Nat} (few : more ≤ 49) (isDir : (node (rooted more true false) i).type = tDir) :
    i = 1 := by
  change ((region (rooted more true false)).dino i).type = tDir at isDir
  rw [rooted_dino few, rootInode] at isDir
  split at isDir
  · assumption
  · split at isDir
    · exact absurd isDir (by decide)
    · split at isDir <;> exact absurd isDir (by decide)

/-- The root directory names itself and the file. -/
theorem rooted_names (full : more = 0 ∨ more = 49) :
    (node (rooted more true false) 1).size % direntSize = 0 ∧
    ∀ j < (dir (node (rooted more true false) 1)).len,
      ((dir (node (rooted more true false) 1)).slot j).all fun e => e.2 = 1 ∨ e.2 = 2 := by
  rcases full with rfl | rfl <;> decide +kernel

theorem rooted_ready (full : more = 0 ∨ more = 49) : Ready (rooted more true false) 0 := by
  have few : more ≤ 49 := by omega
  have known : ∀ j < (dir (node (rooted more true false) 1)).len, ∀ key i,
      (dir (node (rooted more true false) 1)).slot j = some (key, i) → i = 1 ∨ i = 2 := by
    intro j inside key i slot
    have all := (rooted_names full).2 j inside
    rw [slot] at all
    simpa using all
  have types : ∀ i, (node (rooted more true false) i).type = (rootInode more i).type ∧
      (node (rooted more true false) i).nlink = (rootInode more i).nlink := by
    intro i
    rw [← (rooted_dino few : (region (rooted more true false)).dino i = _)]
    exact ⟨rfl, rfl⟩
  have first : (rootInode more 1).type ≠ 0 ∧ (rootInode more 2).type ≠ 0 :=
    ⟨show tDir ≠ 0 by decide, show tFile ≠ 0 by decide⟩
  refine ⟨rooted_mid few, ?_, ⟨?_, ?_, ?_, ?_⟩,
    show 1 < rootSb.ninodes by decide, ⟨0, rfl, Int.zero_lt_one⟩⟩
  · intro i isDir
    rw [rooted_dir few isDir]
    refine ⟨(rooted_names full).1, fun j inside key i slot => ?_⟩
    have total : (rooted more true false).sb.ninodes = 52 := rfl
    have few := known j inside key i slot
    omega
  · -- the files without a name are those in the cache
    intro i type nlink
    rw [(types i).1] at type
    rw [(types i).2] at nlink
    rw [rootInode] at type nlink
    split at nlink
    · exact absurd nlink (by decide)
    · split at nlink
      · exact absurd nlink (by decide)
      · rw [if_neg (by assumption), if_neg (by assumption)] at type
        split at type
        · have entry : (rooted more true false).inode (i - 2) = { inum := i - 2 + 2, ref := 1 } := by
            unfold rooted
            dsimp only
            rw [if_neg (by omega), if_pos (by omega)]
          refine ⟨i - 2, ?_, ?_⟩
          · dsimp only
            rw [entry]
            exact Int.zero_lt_one
          · rw [entry]
            exact Nat.sub_add_cancel (by omega)
        · exact absurd rfl type
  · rintro i ⟨d, key, isDir, named⟩
    obtain rfl := rooted_dir few isDir
    obtain ⟨j, found, value⟩ := Option.bind_eq_some_iff.mp named
    obtain ⟨inside, v, slot⟩ := find_some found
    rw [slot] at value
    obtain rfl : v = i := Option.some.inj value
    rw [(types v).1]
    rcases known j inside key v slot with rfl | rfl
    · exact first.1
    · exact first.2
  · rintro i ⟨k, ref, rfl⟩
    obtain ⟨below, inum⟩ := rooted_entry ref
    rw [inum, (types _).1]
    split
    · exact first.1
    · rw [rootInode, if_neg (by omega), if_neg (by omega), if_pos (by omega)]
      exact show tFile ≠ 0 by decide
  · exact (types 1).1 ▸ first.1

end Rooted

/-- The file by one of its paths. -/
theorem path_is_walk_file :
    wp (namei 0 [47, 47, 46, 47, 102]) (fun r t => Returned (rooted 0 true false) t r ∧
      r.map (fun ip => (t.inode ip).inum) = some 2)
      (CacheFull (rooted 0 true false)) (rooted 0 true false) := by
  have found : walk (node (rooted 0 true false)) (origin (rooted 0 true false) 0 [47, 47, 46, 47, 102])
      (components [47, 47, 46, 47, 102]) = some 2 := by decide +kernel
  apply wp_mono (path_is_walk (rooted 0 true false) 0 [47, 47, 46, 47, 102] (rooted_ready (.inl rfl))
    (by decide)).1
  rintro r t ⟨returned, result, -⟩
  exact ⟨returned, result.trans found⟩

/-- All entries of the inode cache are in use, by the root directory and open files: the file
cannot be looked up. -/
theorem full_cache_stops_namei : Ready (rooted 49 true false) 0 ∧
    walk (node (rooted 49 true false)) (origin (rooted 49 true false) 0 [47, 102]) (components [47, 102]) =
      some 2 ∧
    namei 0 [47, 102] (rooted 49 true false) = .error .igetNoInodes := by
  refine ⟨rooted_ready (.inr rfl), by decide +kernel, ?_⟩
  have stopped : (match namei 0 [47, 102] (rooted 49 true false) with
      | .ok _ => false
      | .error e => decide (e = .igetNoInodes)) = true := by decide +kernel
  cases result : namei 0 [47, 102] (rooted 49 true false) with
  | ok r =>
    rw [result] at stopped
    cases stopped
  | error e =>
    rw [result] at stopped
    rw [of_decide_eq_true stopped]

end Namei

end ColorXv6.Fs.PathNames
