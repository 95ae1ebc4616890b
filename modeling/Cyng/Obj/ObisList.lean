import Cyng.Obj.Intrinsics
import Mathlib.Logic.Function.Iterate

/-!
# OBIS lists

An OBIS code that ends with groups FF stands for a list: the number of these groups is its depth,
the first of them numbers the entries, and the last group before them is its own number in the
list above. Both functions that walk a list look for that group from the end, and start with the
group before the last one. A code that does not end with FF has no list, and for such a code they
find a group that does not belong to one.
-/

namespace Cyng

namespace Obis

/-- The code with other groups. -/
def withGroups (o : Obis) (d : Bytes) (h : d.length = o.val.length) : Obis :=
  ⟨d, h.trans o.property⟩

/-- `obis::operator[]` -/
def group (o : Obis) (i : ℕ) : UInt8 := o.val.getD i 0

/-- `depth(obis const&)` -/
def depth (o : Obis) : ℕ := (o.val.reverse.takeWhile (· = 0xFF)).length

/-- Where the loops of `descend` and `next` stop, counted from the end. -/
def listPosition (o : Obis) : Option ℕ :=
  (List.range 6).find? fun pos => o.val.reverse.getD pos 0 ≠ 0xFF ∧ pos ≠ 0

/-- `descend(obis const&)` -/
def descend (o : Obis) : Obis :=
  match listPosition o with
  | some pos => o.withGroups (o.val.reverse.set (pos - 1) 0x01).reverse (by simp)
  | none => o

/-- `next(obis const&)` -/
def next (o : Obis) : Obis :=
  match listPosition o with
  | some pos =>
    o.withGroups (o.val.reverse.set pos (o.val.reverse.getD pos 0 + 1)).reverse (by simp)
  | none => o

/-! ### The list of a code -/

section Lists

variable {o : Obis} {front : Bytes} {c : UInt8} {d : ℕ}

/-- The last group that is not FF, what stands before it, and how many groups follow. -/
structure Splits (o : Obis) (front : Bytes) (c : UInt8) (d : ℕ) : Prop where
  val_eq : o.val = front ++ c :: List.replicate d 0xFF
  ne : c ≠ 0xFF

theorem exists_split {l : Bytes} (h : ∃ c ∈ l, c ≠ 0xFF) :
    ∃ front c d, l = front ++ c :: List.replicate d 0xFF ∧ c ≠ 0xFF := by
  induction l using List.reverseRecOn with
  | nil => simp at h
  | append_singleton l a ih =>
    by_cases ha : a = 0xFF
    · subst ha
      obtain ⟨front, c, d, rfl, hc⟩ := ih (by simpa using h)
      exact ⟨front, c, d + 1, by simp [List.replicate_succ'], hc⟩
    · exact ⟨l, a, 0, by simp, ha⟩

/-- Every code that does not consist of FF only has such a group. -/
theorem Splits.exists (h : ∃ c ∈ o.val, c ≠ 0xFF) : ∃ front c d, Splits o front c d := by
  obtain ⟨front, c, d, hval, hc⟩ := exists_split h
  exact ⟨front, c, d, hval, hc⟩

theorem Splits.length (h : Splits o front c d) : front.length + 1 + d = 6 := by
  have hlen := o.property
  rw [h.val_eq] at hlen
  simp at hlen
  omega

/-- The groups that follow are the depth. -/
theorem Splits.depth_eq (h : Splits o front c d) : depth o = d := by
  rw [depth, h.val_eq, List.reverse_append, List.reverse_cons, List.append_assoc,
    List.reverse_replicate, List.takeWhile_append_of_pos (by simp)]
  simp [h.ne]

/-- The loops pass over the last group, whatever it is, and stop at the next one that is not
FF. -/
theorem listPosition_eq_some {last : UInt8}
    (hval : o.val = front ++ c :: List.replicate d 0xFF ++ [last]) (hc : c ≠ 0xFF) :
    listPosition o = some (d + 1) := by
  have hback : o.val.reverse = last :: (List.replicate d 0xFF ++ c :: front.reverse) := by
    simp [hval]
  have hlen := o.property
  rw [hval] at hlen
  simp only [List.length_append, List.length_cons, List.length_replicate, List.length_nil] at hlen
  rw [listPosition, List.find?_range_eq_some, hback]
  refine ⟨?_, List.mem_range.mpr (by omega), fun j hj => ?_⟩
  · simp [hc]
  · cases j with
    | zero => simp
    | succ j =>
      have hj' : j < d := by omega
      simp [List.getElem?_append, hj']

/-- Where all groups before the last one are FF, they find none. -/
theorem listPosition_eq_none {last : UInt8} (hval : o.val = List.replicate 5 0xFF ++ [last]) :
    listPosition o = none := by
  have hback : o.val.reverse = last :: List.replicate 5 0xFF := by simp [hval]
  rw [listPosition, List.find?_eq_none, hback]
  intro j hj
  have hlt : j < 6 := List.mem_range.mp hj
  cases j with
  | zero => simp
  | succ j =>
    have hj' : j < 5 := by omega
    simp [-List.reduceReplicate, hj']

/-- What a call of `next` makes of the group it finds. -/
theorem next_val {last : UInt8} (hval : o.val = front ++ c :: List.replicate d 0xFF ++ [last])
    (hc : c ≠ 0xFF) : (next o).val = front ++ (c + 1) :: List.replicate d 0xFF ++ [last] := by
  have hback : o.val.reverse = last :: (List.replicate d 0xFF ++ c :: front.reverse) := by
    simp [hval]
  rw [next, listPosition_eq_some hval hc]
  simp only [withGroups]
  rw [hback]
  simp

theorem Splits.val_eq_last (h : Splits o front c (d + 1)) :
    o.val = front ++ c :: List.replicate d 0xFF ++ [0xFF] := by
  rw [h.val_eq, List.replicate_succ', List.append_assoc, List.cons_append]

/-- What a call of `descend` makes of the group after the one it finds. -/
theorem Splits.of_descend (h : Splits o front c (d + 1)) :
    Splits (descend o) (front ++ [c]) 1 d := by
  have hback : o.val.reverse = List.replicate d 0xFF ++ 0xFF :: c :: front.reverse := by
    rw [h.val_eq, List.replicate_succ]
    simp
  refine ⟨?_, by decide⟩
  rw [descend, listPosition_eq_some h.val_eq_last h.ne]
  simp only [withGroups]
  rw [hback, Nat.add_sub_cancel]
  simp

/-- The next entry has the next number, unless the number would be FF. -/
theorem Splits.of_next (h : Splits o front c (d + 1)) (hc : c + 1 ≠ 0xFF) :
    Splits (next o) front (c + 1) (d + 1) := by
  refine ⟨?_, hc⟩
  rw [next_val h.val_eq_last h.ne, List.replicate_succ', List.append_assoc, List.cons_append]

/-- Every call of `descend` goes down one level. -/
theorem Splits.depth_iterate_descend (h : Splits o front c d) :
    depth (descend^[d] o) = 0 := by
  induction d generalizing o front c with
  | zero => exact h.depth_eq
  | succ d ih => exact ih h.of_descend

theorem add_ofNat_ne {n : ℕ} (h : c.toNat + n ≤ 0xFE) : c + UInt8.ofNat n ≠ 0xFF := by
  intro heq
  have hval := congrArg UInt8.toNat heq
  rw [UInt8.toNat_add, UInt8.toNat_ofNat', Nat.mod_eq_of_lt (show n < 2 ^ 8 by omega),
    Nat.mod_eq_of_lt (by omega)] at hval
  change c.toNat + n = 255 at hval
  omega

/-- Repeated calls of `next` count up in one list. -/
theorem Splits.iterate_next (h : Splits o front c (d + 1)) {n : ℕ} (hn : c.toNat + n ≤ 0xFE) :
    Splits (next^[n] o) front (c + UInt8.ofNat n) (d + 1) := by
  induction n with
  | zero => simpa using h
  | succ n ih =>
    have hadd : c + UInt8.ofNat n + 1 = c + UInt8.ofNat (n + 1) := by
      rw [UInt8.ofNat_add, UInt8.add_assoc]
      rfl
    rw [Function.iterate_succ_apply', ← hadd]
    exact (ih (by omega)).of_next (by rw [hadd]; exact add_ofNat_ne hn)

theorem Splits.place (h : Splits o front c d) : 5 - d = front.length := by
  have hlen := h.length
  omega

theorem Splits.group_number (h : Splits o front c d) : o.group (5 - d) = c := by
  rw [h.place, group, h.val_eq]
  simp

theorem Splits.group_front (h : Splits o front c d) {i : ℕ} (hi : i < front.length) :
    o.group i = front[i] := by
  rw [group, h.val_eq, List.getD_eq_getElem?_getD, List.getElem?_append_left hi,
    List.getElem?_eq_getElem hi, Option.getD_some]

theorem Splits.group_last (h : Splits o front c (d + 1)) : o.group 5 = 0xFF := by
  have hlen := h.length
  have hplace : (front ++ c :: List.replicate d 0xFF).length = 5 := by
    simp
    omega
  rw [group, h.val_eq_last, List.getD_eq_getElem?_getD, List.getElem?_append_right hplace.le,
    hplace]
  rfl

/-- Where the code ends with its number, the groups in front are all FF or one of them is not. -/
theorem Splits.front_eq_replicate_iff (h : Splits o front c 0) :
    front = List.replicate 5 0xFF ↔ ∀ i < 5, o.group i = 0xFF := by
  have hlen := h.length
  constructor
  · rintro hfront i hi
    rw [h.group_front (by omega)]
    exact (List.eq_replicate_iff.mp hfront).2 _ (List.getElem_mem _)
  · intro hall
    refine List.eq_replicate_iff.mpr ⟨by omega, fun a ha => ?_⟩
    obtain ⟨i, hi, rfl⟩ := List.getElem_of_mem ha
    rw [← h.group_front hi]
    exact hall i (by omega)

theorem Splits.set_number (h : Splits o front c d) (c' : UInt8) :
    o.val.set (5 - d) c' = front ++ c' :: List.replicate d 0xFF := by
  rw [h.place, h.val_eq]
  simp

theorem Splits.set_entry (h : Splits o front c (d + 1)) :
    o.val.set (6 - (d + 1)) 0x01 = front ++ c :: 0x01 :: List.replicate d 0xFF := by
  have hlen := h.length
  have hplace : 6 - (d + 1) = front.length + 1 := by omega
  rw [hplace, h.val_eq, List.replicate_succ]
  simp

end Lists

/-! ### Walking a list -/

/-- What the documentation says about the two functions. -/
structure WalksLists (o : Obis) : Prop where
  descend_entry : depth o = 0 → descend o = o
  descend_list : 0 < depth o →
    (descend o).val = o.val.set (6 - depth o) 0x01 ∧ depth (descend o) + 1 = depth o ∧
      depth (descend^[depth o] o) = 0
  next_entry : depth o = 0 → next o = o
  next_list : 0 < depth o → (o.group (5 - depth o)).toNat < 0xFE →
    (next o).val = o.val.set (5 - depth o) (o.group (5 - depth o) + 1) ∧
      depth (next o) = depth o ∧
      (∀ n, (o.group (5 - depth o)).toNat + n ≤ 0xFE →
        (next^[n] o).val = o.val.set (5 - depth o) (o.group (5 - depth o) + UInt8.ofNat n) ∧
          depth (next^[n] o) = depth o) ∧
      ∀ m n, (o.group (5 - depth o)).toNat + m ≤ 0xFE → (o.group (5 - depth o)).toNat + n ≤ 0xFE →
        next^[m] o = next^[n] o → m = n

section Walks

variable {o : Obis} {front : Bytes} {c : UInt8} {d : ℕ}

/-- A code that stands for a list is walked as documented. -/
theorem Splits.walksLists (h : Splits o front c (d + 1)) : WalksLists o := by
  have hdepth := h.depth_eq
  refine ⟨fun h0 => ?_, fun _ => ⟨?_, ?_, ?_⟩, fun h0 => ?_, fun _ hlt => ?_⟩
  · omega
  · rw [hdepth, h.set_entry, h.of_descend.val_eq, List.append_assoc]
    rfl
  · rw [hdepth, h.of_descend.depth_eq]
  · rw [hdepth]
    exact h.depth_iterate_descend
  · omega
  · rw [hdepth, h.group_number] at hlt ⊢
    have hiterate {n : ℕ} (hn : c.toNat + n ≤ 0xFE) :
        (next^[n] o).val = o.val.set (5 - (d + 1)) (c + UInt8.ofNat n) ∧
          depth (next^[n] o) = d + 1 :=
      ⟨by rw [h.set_number, (h.iterate_next hn).val_eq], (h.iterate_next hn).depth_eq⟩
    refine ⟨(hiterate (n := 1) (by omega)).1, (hiterate (n := 1) (by omega)).2, fun n => hiterate,
      fun m n hm hn heq => ?_⟩
    have hm' := (h.iterate_next hm).group_number
    rw [heq, (h.iterate_next hn).group_number, UInt8.add_right_inj] at hm'
    have hvals := congrArg UInt8.toNat hm'
    simp only [UInt8.toNat_ofNat'] at hvals
    omega

/-- A code without a list is left alone where all the groups before the last one are FF. -/
theorem walksLists_of_front (hc : c ≠ 0xFF) (hval : o.val = List.replicate 5 0xFF ++ [c]) :
    WalksLists o := by
  have hsplits : Splits o (List.replicate 5 0xFF) c 0 := ⟨hval, hc⟩
  have hnone := listPosition_eq_none hval
  have hdepth := hsplits.depth_eq
  refine ⟨fun _ => ?_, fun h0 => ?_, fun _ => ?_, fun h0 => ?_⟩
  · rw [descend, hnone]
  · omega
  · rw [next, hnone]
  · omega

/-- Any other code without a list is changed. -/
theorem next_ne (h : Splits o front c 0) (hfront : ∃ c ∈ front, c ≠ 0xFF) : next o ≠ o := by
  obtain ⟨front', c', d, rfl, hc'⟩ := exists_split hfront
  have hval : o.val = front' ++ c' :: List.replicate d 0xFF ++ [c] := by
    simpa using h.val_eq
  intro heq
  have hsame : front' ++ (c' + 1) :: List.replicate d 0xFF ++ [c] =
      front' ++ c' :: List.replicate d 0xFF ++ [c] := by
    rw [← next_val hval hc', heq, hval]
  simp at hsame

/-- The two functions do as documented exactly where the last group is FF or all the others
are. -/
theorem walksLists_iff (o : Obis) (h : ∃ c ∈ o.val, c ≠ 0xFF) :
    WalksLists o ↔ o.group 5 = 0xFF ∨ ∀ i < 5, o.group i = 0xFF := by
  obtain ⟨front, c, d, hsplits⟩ := Splits.exists h
  cases d with
  | zero =>
    -- no list: the two functions have to leave the code alone
    have hlast : o.group 5 = c := hsplits.group_number
    rw [hlast, or_iff_right hsplits.ne, ← hsplits.front_eq_replicate_iff]
    constructor
    · intro hwalks
      by_contra hne
      have hfront : ∃ c ∈ front, c ≠ 0xFF := by
        have hlen := hsplits.length
        by_contra hall
        apply hne
        exact List.eq_replicate_iff.mpr ⟨by omega, by simpa using hall⟩
      exact next_ne hsplits hfront (hwalks.next_entry hsplits.depth_eq)
    · rintro rfl
      exact walksLists_of_front hsplits.ne hsplits.val_eq
  | succ d => exact iff_of_true hsplits.walksLists (Or.inl hsplits.group_last)

theorem walksLists_sample : WalksLists ⟨[0x81, 0x81, 0x11, 0x06, 0xFF, 0xFF], rfl⟩ :=
  (walksLists_iff ⟨[0x81, 0x81, 0x11, 0x06, 0xFF, 0xFF], rfl⟩ ⟨0x81, by decide, by decide⟩).mpr
    (Or.inl rfl)

/-- The second example of the documentation of `next` is not left alone. -/
theorem not_walksLists : ¬∀ o : Obis, (∃ c ∈ o.val, c ≠ 0xFF) → WalksLists o := by
  intro h
  have hwalks := h ⟨[0x81, 0x81, 0x11, 0x06, 0x01, 0x02], rfl⟩ ⟨0x81, by decide, by decide⟩
  have hsame := hwalks.next_entry (by decide)
  have hlast := congrArg (fun o => o.group 4) hsame
  revert hlast
  decide

end Walks

end Obis

end Cyng
