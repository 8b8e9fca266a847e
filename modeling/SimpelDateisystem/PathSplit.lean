import SimpelDateisystem.Sfs

/-!
# The pieces of a path, with every copy checked

`getRelativeParentName`, `create_inode` and `findFileOrDir` cut a path by positions of slashes and by
lengths of suffixes, each on its own, into buffers that have no byte to spare: the buffer for the
parent path has `strlen(path)` bytes, and only the slash that is left out makes room for the NUL.

| here | there |
| --- | --- |
| `getRelativeParentName?` | `getRelativeParentName` (`DateiSteuerBlock.c:36`) |
| `absolutePathToParent?`  | the buffer filled at `:230-232` |

Both are `none` if a copy leaves its buffer or leaves no NUL in it. `splitsExactly` is about every
list of components, of any number and any length. `getRelativeParentName` keeps the length of the
parent path in an `int`; `conv` is the conversion to it, exact or to 32 bits, which is the same for
a parent path of less than 2^31 bytes.
-/

namespace Sfs

open CString

/-- `r00t`: two bytes from `malloc`, whatever they hold, filled by `strncpy(r00t, "/", 2)`. -/
def root? (r00t : Vector Byte 2) : Option CStr := (strncpy? r00t.toList [slash] 2).bind cstr?

/-- `getRelativeParentName`; `some none` is a return value of `NULL`. -/
def getRelativeParentName? (conv : Int → Int) (r00t : Vector Byte 2) (filePath : CStr) :
    Option (Option CStr) :=
  match strrchr filePath slash with
  | some fromLastSlash =>
    let absoluteParentName := calloc filePath.length
    let lenAbsParent := conv (filePath.length - fromLastSlash.length)
    if lenAbsParent = 0 then (root? r00t).map some
    else
      match (strncpy? absoluteParentName filePath lenAbsParent).bind cstr? with
      | some absoluteParentName =>
        match strrchr absoluteParentName slash with
        | some fromLastSlashInAP =>
          let relativeParentName := calloc (fromLastSlashInAP.length + 1)
          ((strcpy? relativeParentName (fromLastSlashInAP.drop 1)).bind cstr?).map some
        | none => (root? r00t).map some
      | none => none
  | none => some none

def absolutePathToParent? (path : CStr) : Option CStr :=
  (strncpy? (calloc path.length) path (path.length - (relativeName path).length - 1)).bind cstr?

/-- `"/c1/.../cn"` is cut into its pieces, `c` being `cn` and `cs` the components before it. -/
structure SplitsExactly (conv : Int → Int) (r00t : Vector Byte 2) (cs : List CStr) (c : CStr) : Prop where
  relativeName : relativeName (join (cs ++ [c])) = c
  /-- The checked copies stay in bounds and are terminated; `"/"` for `n = 1`. -/
  parentName : getRelativeParentName? conv r00t (join (cs ++ [c])) = some (some (cs.getLast?.getD [slash]))
  parentPath : absolutePathToParent? (join (cs ++ [c])) = some (join cs)
  /-- The unchecked functions say the same. -/
  parentName' : getRelativeParentName (join (cs ++ [c])) = some (cs.getLast?.getD [slash])
  parentPath' : absolutePathToParent (join (cs ++ [c])) = join cs
  /-- `create_inode` looks up the parent path, from the second component on. -/
  lookupParent : ∀ t : Table, ∀ d ∈ cs.getLast?, t.parentSlot (join (cs ++ [c])) d = findFileOrDir t (join cs)
  /-- `findFileOrDir` looks for the last two components. -/
  lookup : ∀ (t : Table) (x : Nat), matchesPath t (join (cs ++ [c])) x = true ↔
    (t.inodes x).name = c ∧ (t.inodes x).dir = cs.getLast?.getD [slash]

theorem root?_eq (r00t : Vector Byte 2) : root? r00t = some [slash] := by
  have hlen : r00t.toList.length = 2 := by simp
  have hcopy : strncpy r00t.toList [slash] 2 = [slash, 0] := by
    simp [strncpy, hlen, List.drop_of_length_le]
  rw [root?, show (2 : Int) = (2 : Nat) from rfl, strncpy?_natCast _ (by rw [hlen]), hcopy]
  exact cstr?_append_zero (s := [slash]) (by decide) []

section split

variable {conv : Int → Int} {r00t : Vector Byte 2} {c d : CStr}

/-- Directly below the root. -/
theorem getRelativeParentName?_top (hc : slash ∉ c) (hconv : conv 0 = 0) :
    getRelativeParentName? conv r00t (slash :: c) = some (some [slash]) := by
  have h := strrchr_append [] c hc
  rw [List.nil_append] at h
  simp only [getRelativeParentName?, h, Int.sub_self, hconv, if_true, root?_eq, Option.map_some]

/-- Below a directory `d`. -/
theorem getRelativeParentName?_append (u : CStr) (hu : (0 : Byte) ∉ u) (hd : slash ∉ d) (hd0 : (0 : Byte) ∉ d)
    (hc : slash ∉ c) (hconv : conv (u ++ slash :: d).length = (u ++ slash :: d).length) :
    getRelativeParentName? conv r00t ((u ++ slash :: d) ++ slash :: c) = some (some d) := by
  have hud : (0 : Byte) ∉ u ++ slash :: d := by
    simp only [List.mem_append, List.mem_cons, not_or]
    exact ⟨hu, by decide, hd0⟩
  have hlen : ((((u ++ slash :: d) ++ slash :: c).length : Int) - (slash :: c).length) =
      (u ++ slash :: d).length := by
    rw [List.length_append]
    omega
  have hpos : ((u ++ slash :: d).length : Int) ≠ 0 := by
    rw [List.length_append, List.length_cons]
    omega
  have hcopy : (strcpy? (calloc ((slash :: d).length + 1)) d).bind cstr? = some d :=
    cstr?_strcpy hd0 (by rw [length_calloc, List.length_cons]; omega)
  simp only [getRelativeParentName?, strrchr_append _ c hc, hlen, hconv]
  rw [if_neg hpos, cstr?_strncpy_calloc hud (by simp)]
  simp only [strrchr_append u d hd, List.drop_succ_cons, List.drop_zero, hcopy, Option.map_some]

theorem absolutePathToParent?_append {u : CStr} (hu : (0 : Byte) ∉ u) (hc : slash ∉ c) :
    absolutePathToParent? (u ++ slash :: c) = some u := by
  have hlen : (((u ++ slash :: c).length : Int) - (relativeName (u ++ slash :: c)).length - 1) = u.length := by
    rw [relativeName_append u c hc, List.length_append, List.length_cons]
    omega
  rw [absolutePathToParent?, hlen]
  exact cstr?_strncpy_calloc hu (by simp)

end split

/-- **Path splitting is exact** if the length of the parent path survives the conversion. -/
theorem splitsExactly_of_conv {conv : Int → Int} (r00t : Vector Byte 2) {cs : List CStr} {c : CStr}
    (hcs : ∀ x ∈ cs ++ [c], x ≠ [] ∧ slash ∉ x ∧ (0 : Byte) ∉ x) (hconv : conv (join cs).length = (join cs).length) :
    SplitsExactly conv r00t cs c := by
  obtain ⟨_, hc, _⟩ := hcs c (by simp)
  have hcs0 : (0 : Byte) ∉ join cs := zero_notMem_join fun x hx => (hcs x (by simp [hx])).2.2
  have hname : getRelativeParentName? conv r00t (join (cs ++ [c])) = some (some (cs.getLast?.getD [slash])) ∧
      getRelativeParentName (join (cs ++ [c])) = some (cs.getLast?.getD [slash]) := by
    rw [join_concat]
    obtain rfl | ⟨u, d, rfl⟩ := cs.eq_nil_or_concat
    · exact ⟨getRelativeParentName?_top hc hconv, getRelativeParentName_top c hc⟩
    · obtain ⟨_, hd, hd0⟩ := hcs d (by simp)
      have hu0 : (0 : Byte) ∉ join u := zero_notMem_join fun x hx => (hcs x (by simp [hx])).2.2
      rw [List.concat_eq_append, join_concat] at hconv
      rw [List.concat_eq_append, join_concat, List.getLast?_append, List.getLast?_singleton]
      exact ⟨getRelativeParentName?_append _ hu0 hd hd0 hc hconv, getRelativeParentName_append _ d c hu0 hd hd0 hc⟩
  have hpath : absolutePathToParent (join (cs ++ [c])) = join cs := by
    rw [join_concat]
    exact absolutePathToParent_append _ c hcs0 hc
  have hleaf : relativeName (join (cs ++ [c])) = c := by
    rw [join_concat]
    exact relativeName_append _ c hc
  refine ⟨hleaf, hname.1, ?_, hname.2, hpath, fun t d hd => ?_, fun t x => ?_⟩
  · rw [join_concat]
    exact absolutePathToParent?_append hcs0 hc
  · -- a component is no `"/"`
    have hne : d ≠ [slash] := by
      rintro rfl
      exact (hcs [slash] (List.mem_append_left _ (List.mem_of_getLast? hd))).2.1 (by simp)
    rw [Table.parentSlot, if_neg hne, hpath]
  · simp only [matchesPath, hleaf, hname.2, Bool.and_eq_true, decide_eq_true_eq]

theorem toInt32_natCast {n : Nat} (hn : n < 2 ^ 31) : toInt32 n = n := by
  rw [toInt32, BitVec.toInt_ofInt, Int.bmod_eq_of_le (by omega) (by omega)]

/-- **Path splitting is exact**, for every list of components: all pieces are right, and no copy leaves
its buffer or leaves it without a NUL. -/
theorem splitsExactly (r00t : Vector Byte 2) {cs : List CStr} {c : CStr}
    (hcs : ∀ x ∈ cs ++ [c], x ≠ [] ∧ slash ∉ x ∧ (0 : Byte) ∉ x) :
    SplitsExactly id r00t cs c ∧ ((join cs).length < 2 ^ 31 → SplitsExactly toInt32 r00t cs c) :=
  ⟨splitsExactly_of_conv r00t hcs rfl, fun hlen => splitsExactly_of_conv r00t hcs (toInt32_natCast hlen)⟩

theorem splitsExactly_abc : SplitsExactly id (Vector.replicate 2 255) [[97], [98]] [99] ∧
    ((join [[97], [98]]).length < 2 ^ 31 →
      SplitsExactly toInt32 (Vector.replicate 2 255) [[97], [98]] [99]) :=
  splitsExactly _ (by decide)

end Sfs
