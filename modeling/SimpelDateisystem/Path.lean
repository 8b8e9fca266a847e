import SimpelDateisystem.Knoten

/-!
# Paths and the pieces the code cuts them into

The program keeps no path. A slot stores the last component (`fileName`) and the *name* of the
directory above (`parentDir`), and each function cuts these pieces out of the path it is given:

| here | there |
| --- | --- |
| `getRelativeParentName` | `getRelativeParentName` (`DateiSteuerBlock.c:36`) |
| `relativeName`          | `pLastSlash ? pLastSlash+1 : path` (`:221-222`, `:329-330`) |
| `absolutePathToParent`  | the buffer filled at `:230-232` |

`AbsPath` is an absolute normalised path as the kernel hands it over. `getRelativeParentName_str`,
`relativeName_str` and `absolutePathToParent_str` say what the three computations give on one.
Allocations succeed.
-/

namespace Sfs

open CString

def relativeName (path : CStr) : CStr :=
  match strrchr path slash with
  | some pLastSlash => pLastSlash.drop 1
  | none => path

def getRelativeParentName (filePath : CStr) : Option CStr :=
  match strrchr filePath slash with
  | some fromLastSlash =>
    let absoluteParentName := calloc filePath.length
    let lenAbsParent := filePath.length - fromLastSlash.length
    if lenAbsParent = 0 then some [slash]
    else
      match strrchr (cstr (strncpy absoluteParentName filePath lenAbsParent)) slash with
      | some fromLastSlashInAP =>
        some (cstr (strcpy (calloc (fromLastSlashInAP.length + 1)) (fromLastSlashInAP.drop 1)))
      | none => some [slash]
  | none => none

def absolutePathToParent (path : CStr) : CStr :=
  cstr (strncpy (calloc path.length) path (path.length - (relativeName path).length - 1))

/-! ## Absolute normalised paths -/

/-- A path component: a file name as the kernel admits it. -/
structure Component where
  bytes : CStr
  nonempty : bytes ≠ []
  short : bytes.length < NAME_SIZE
  noSlash : slash ∉ bytes
  noNul : (0 : Byte) ∉ bytes
deriving DecidableEq

/-- A name of one byte. -/
def Component.letter (b : Byte) (h : b ≠ slash ∧ b ≠ 0) : Component where
  bytes := [b]
  nonempty := by simp
  short := by simp
  noSlash := by simpa using h.1.symm
  noNul := by simpa using h.2.symm

/-- The names used in examples. -/
def Component.a : Component := .letter 97 (by decide)
def Component.b : Component := .letter 98 (by decide)
def Component.c : Component := .letter 99 (by decide)
def Component.d : Component := .letter 100 (by decide)

/-- The components from the root down; the root itself is `[]`. -/
abbrev AbsPath := List Component

/-- Names, each behind a slash. -/
def join (cs : List CStr) : CStr := cs.flatMap fun c => slash :: c

namespace AbsPath

/-- The string of a path. -/
def str (p : AbsPath) : CStr := if p = [] then [slash] else join (p.map Component.bytes)

/-- The last component. -/
def leaf (p : AbsPath) : CStr := (p.getLast?.map Component.bytes).getD []

/-- The path of the directory above. -/
def parent (p : AbsPath) : AbsPath := p.dropLast

/-- The name of the directory above, `/` at the top level. -/
def parentName (p : AbsPath) : CStr := (p.dropLast.getLast?.map Component.bytes).getD [slash]

end AbsPath

theorem join_concat (cs : List CStr) (c : CStr) : join (cs ++ [c]) = join cs ++ slash :: c := by
  simp [join]

theorem zero_notMem_join {cs : List CStr} (h : ∀ c ∈ cs, (0 : Byte) ∉ c) : (0 : Byte) ∉ join cs := by
  simp only [join, List.mem_flatMap, List.mem_cons, not_exists, not_and, not_or]
  exact fun c hc => ⟨by decide, h c hc⟩

/-! ## The three computations on a path `u/c` -/

theorem relativeName_append (u c : CStr) (hc : slash ∉ c) : relativeName (u ++ slash :: c) = c := by
  simp [relativeName, strrchr_append u c hc]

theorem absolutePathToParent_append (u c : CStr) (hu : (0 : Byte) ∉ u) (hc : slash ∉ c) :
    absolutePathToParent (u ++ slash :: c) = u := by
  have hlen : (u ++ slash :: c).length - (relativeName (u ++ slash :: c)).length - 1 = u.length := by
    rw [relativeName_append u c hc]
    simp
    omega
  rw [absolutePathToParent, hlen]
  exact cstr_strncpy_calloc hu (by simp)

/-- Directly below the root. -/
theorem getRelativeParentName_top (c : CStr) (hc : slash ∉ c) :
    getRelativeParentName (slash :: c) = some [slash] := by
  have h := strrchr_append [] c hc
  rw [List.nil_append] at h
  simp [getRelativeParentName, h]

/-- Below a directory `d`: the second of the two names at the end of the path. -/
theorem getRelativeParentName_append (u d c : CStr) (hu : (0 : Byte) ∉ u) (hd : slash ∉ d)
    (hd0 : (0 : Byte) ∉ d) (hc : slash ∉ c) :
    getRelativeParentName ((u ++ slash :: d) ++ slash :: c) = some d := by
  have hud : (0 : Byte) ∉ u ++ slash :: d := by
    simp only [List.mem_append, List.mem_cons, not_or]
    exact ⟨hu, by decide, hd0⟩
  have hlen : ((u ++ slash :: d) ++ slash :: c).length - (slash :: c).length = (u ++ slash :: d).length := by
    rw [List.length_append, Nat.add_sub_cancel]
  simp only [getRelativeParentName, strrchr_append _ c hc]
  rw [hlen, if_neg (by simp), cstr_strncpy_calloc hud (by simp), strrchr_append u d hd]
  simp only [List.drop_succ_cons, List.drop_zero]
  rw [cstr_strcpy hd0 (by rw [length_calloc, List.length_cons]; omega)]

namespace AbsPath

variable {p q : AbsPath} {c : Component}

@[simp] theorem str_nil : str [] = [slash] := rfl

theorem str_concat (q : AbsPath) (c : Component) :
    str (q ++ [c]) = join (q.map Component.bytes) ++ slash :: c.bytes := by
  rw [str, if_neg (by simp), List.map_append, List.map_singleton, join_concat]

theorem leaf_concat (q : AbsPath) (c : Component) : leaf (q ++ [c]) = c.bytes := by simp [leaf]

theorem parent_concat (q : AbsPath) (c : Component) : parent (q ++ [c]) = q := by simp [parent]

theorem parentName_top (c : Component) : parentName [c] = [slash] := by simp [parentName]

theorem parentName_concat (q : AbsPath) (d c : Component) :
    parentName (q ++ [d] ++ [c]) = d.bytes := by
  simp [parentName]

theorem str_ne_root (hp : p ≠ []) : str p ≠ [slash] := by
  obtain rfl | ⟨q, c, rfl⟩ := p.eq_nil_or_concat
  · exact absurd rfl hp
  · rw [List.concat_eq_append, str_concat]
    intro h
    have hlen := congrArg List.length h
    have hc := List.length_pos_iff.2 c.nonempty
    simp only [List.length_append, List.length_cons, List.length_nil] at hlen
    omega

theorem relativeName_str (p : AbsPath) : relativeName p.str = p.leaf := by
  obtain rfl | ⟨q, c, rfl⟩ := p.eq_nil_or_concat
  · rfl
  · rw [List.concat_eq_append, str_concat, relativeName_append _ _ c.noSlash, leaf_concat]

theorem zero_notMem_join_bytes (q : AbsPath) : (0 : Byte) ∉ join (q.map Component.bytes) := by
  refine zero_notMem_join fun b hb => ?_
  obtain ⟨c, _, rfl⟩ := List.mem_map.1 hb
  exact c.noNul

theorem getRelativeParentName_str (p : AbsPath) : getRelativeParentName p.str = some p.parentName := by
  obtain rfl | ⟨q, c, rfl⟩ := p.eq_nil_or_concat
  · exact getRelativeParentName_top [] (by simp)
  rw [List.concat_eq_append, str_concat]
  obtain rfl | ⟨q, d, rfl⟩ := q.eq_nil_or_concat
  · exact getRelativeParentName_top c.bytes c.noSlash
  · rw [List.concat_eq_append, List.map_append, List.map_singleton, join_concat, parentName_concat]
    exact getRelativeParentName_append _ _ _ (zero_notMem_join_bytes q) d.noSlash d.noNul c.noSlash

theorem absolutePathToParent_str (hp : p.parent ≠ []) : absolutePathToParent p.str = p.parent.str := by
  obtain rfl | ⟨q, c, rfl⟩ := p.eq_nil_or_concat
  · exact absurd rfl hp
  rw [List.concat_eq_append, parent_concat] at hp ⊢
  rw [str_concat, absolutePathToParent_append _ _ (zero_notMem_join_bytes q) c.noSlash, str, if_neg hp]

/-! ### The names -/

theorem leaf_ne_nil (hp : p ≠ []) : p.leaf ≠ [] := by
  obtain rfl | ⟨q, c, rfl⟩ := p.eq_nil_or_concat
  · exact absurd rfl hp
  · rw [List.concat_eq_append, leaf_concat]; exact c.nonempty

theorem leaf_noSlash (p : AbsPath) : slash ∉ p.leaf := by
  obtain rfl | ⟨q, c, rfl⟩ := p.eq_nil_or_concat
  · simp [leaf]
  · rw [List.concat_eq_append, leaf_concat]; exact c.noSlash

theorem leaf_noNul (p : AbsPath) : (0 : Byte) ∉ p.leaf := by
  obtain rfl | ⟨q, c, rfl⟩ := p.eq_nil_or_concat
  · simp [leaf]
  · rw [List.concat_eq_append, leaf_concat]; exact c.noNul

theorem leaf_short (p : AbsPath) : p.leaf.length < NAME_SIZE := by
  obtain rfl | ⟨q, c, rfl⟩ := p.eq_nil_or_concat
  · simp [leaf]
  · rw [List.concat_eq_append, leaf_concat]; exact c.short

theorem leaf_ne_root (p : AbsPath) : p.leaf ≠ [slash] := by
  intro h
  exact leaf_noSlash p (by rw [h]; simp)

/-- The name of the directory above is `/` or the parent path's own last component. -/
theorem parentName_cases (p : AbsPath) :
    (p.parent = [] ∧ p.parentName = [slash]) ∨ (p.parent ≠ [] ∧ p.parentName = p.parent.leaf) := by
  obtain rfl | ⟨q, c, rfl⟩ := p.eq_nil_or_concat
  · exact .inl ⟨rfl, rfl⟩
  rw [List.concat_eq_append, parent_concat]
  obtain rfl | ⟨q, d, rfl⟩ := q.eq_nil_or_concat
  · exact .inl ⟨rfl, parentName_top c⟩
  · rw [List.concat_eq_append, parentName_concat, leaf_concat]
    exact .inr ⟨by simp, rfl⟩

theorem parentName_eq_root_iff : p.parentName = [slash] ↔ p.parent = [] := by
  rcases p.parentName_cases with ⟨h1, h2⟩ | ⟨h1, h2⟩
  · exact ⟨fun _ => h1, fun _ => h2⟩
  · rw [h2]
    exact ⟨fun h => absurd h (leaf_ne_root _), fun h => absurd h h1⟩

theorem parentName_noNul (p : AbsPath) : (0 : Byte) ∉ p.parentName := by
  rcases p.parentName_cases with ⟨_, h⟩ | ⟨_, h⟩ <;> rw [h]
  · decide
  · exact leaf_noNul _

theorem parentName_short (p : AbsPath) : p.parentName.length < NAME_SIZE := by
  rcases p.parentName_cases with ⟨_, h⟩ | ⟨_, h⟩ <;> rw [h]
  · decide
  · exact leaf_short _

end AbsPath

end Sfs
