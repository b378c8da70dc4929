import ArgGrammar.Text.Bytes
import Mathlib.Order.Bounds.Defs

/-!
# Places between characters

The sizes of `Text` are those of the UTF-8 form of a string, and the places between its characters
are the sizes of its leading runs.

* `Text.isValid_iff`: a byte offset is a place between characters if a leading run has that size.
* `Text.isGreatest_size_upTo`: a cut is made at the last such place that the offset leaves.
* `Text.slice_append`: the bytes of a run are the run.
-/

namespace ArgGrammar.Text

theorem byteSize_eq_utf8ByteSize (cs : List Char) :
    byteSize cs = (String.ofList cs).utf8ByteSize := by
  induction cs with
  | nil => rfl
  | cons c cs ih =>
    rw [byteSize, ih, String.ofList_cons, String.utf8ByteSize_append, String.utf8ByteSize_singleton]

theorem size_ofList (cs : List Char) : size (String.ofList cs) = byteSize cs := by
  rw [size, String.toList_ofList]

theorem byteSize_pos {cs : List Char} (h : cs ≠ []) : 0 < byteSize cs := by
  cases cs with
  | nil => exact absurd rfl h
  | cons c cs =>
    have hc : 0 < c.utf8Size := Char.utf8Size_pos c
    rw [byteSize]
    omega

theorem isValid_iff {s : String} {n : Nat} :
    String.Pos.Raw.IsValid s ⟨n⟩ ↔ ∃ u v, s.toList = u ++ v ∧ byteSize u = n := by
  rw [String.Pos.Raw.isValid_iff_exists_append]
  constructor
  · rintro ⟨s₁, s₂, rfl, hn⟩
    refine ⟨s₁.toList, s₂.toList, String.toList_append, ?_⟩
    rw [byteSize_eq_utf8ByteSize, String.ofList_toList]
    exact (congrArg String.Pos.Raw.byteIdx hn).symm
  · rintro ⟨u, v, hs, rfl⟩
    refine ⟨String.ofList u, String.ofList v, ?_, ?_⟩
    · rw [← String.ofList_append, ← hs, String.ofList_toList]
    · rw [byteSize_eq_utf8ByteSize]
      rfl

theorem isValid_byteSize (u v : List Char) :
    String.Pos.Raw.IsValid (String.ofList (u ++ v)) ⟨byteSize u⟩ :=
  isValid_iff.mpr ⟨u, v, String.toList_ofList, rfl⟩

/-! ## Cuts -/

theorem takeBytes_append_of_le {u : List Char} {n : Nat} (h : byteSize u ≤ n) (v : List Char) :
    takeBytes n (u ++ v) = u ++ takeBytes (n - byteSize u) v := by
  induction u generalizing n with
  | nil => rfl
  | cons c u ih =>
    rw [byteSize] at h
    have hc : c.utf8Size ≤ n := by omega
    have hu : byteSize u ≤ n - c.utf8Size := by omega
    rw [List.cons_append, takeBytes, if_pos hc, ih hu, List.cons_append, byteSize, Nat.sub_sub]

theorem upTo_byteSize (u v : List Char) :
    upTo (byteSize u) (String.ofList (u ++ v)) = String.ofList u := by
  rw [upTo, String.toList_ofList, takeBytes_byteSize_append]

theorem isGreatest_size_upTo (n : Nat) (s : String) :
    IsGreatest {m | m ≤ min n (size s) ∧ String.Pos.Raw.IsValid s ⟨m⟩} (size (upTo n s)) := by
  have hsplit : s.toList = takeBytes n s.toList ++ dropBytes n s.toList := by simp
  refine ⟨⟨?_, ?_⟩, ?_⟩
  · have hfits : byteSize (takeBytes n s.toList) ≤ n := byteSize_takeBytes_le n s.toList
    have hsize := congrArg byteSize hsplit
    rw [byteSize_append] at hsize
    rw [upTo, size_ofList, size]
    omega
  · rw [upTo, size_ofList]
    exact isValid_iff.mpr ⟨_, _, hsplit, rfl⟩
  · -- a leading run that fits before the offset is part of what the cut keeps
    rintro m ⟨hm, hvalid⟩
    obtain ⟨u, v, hs, rfl⟩ := isValid_iff.mp hvalid
    have hu : byteSize u ≤ n := by omega
    rw [upTo, size_ofList, hs, takeBytes_append_of_le hu, byteSize_append]
    exact Nat.le_add_right _ _

theorem slice_append (u v w : List Char) :
    slice (byteSize u) (byteSize u + byteSize v) (String.ofList (u ++ (v ++ w))) =
      String.ofList v := by
  rw [slice, String.toList_ofList, dropBytes_byteSize_append, Nat.add_sub_cancel_left,
    takeBytes_byteSize_append]

end ArgGrammar.Text
