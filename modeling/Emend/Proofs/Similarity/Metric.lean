import Emend.Proofs.Score.Rounded
import Mathlib.Order.Bounds.Defs

namespace Emend

theorem commonRow_cons (s : Text) (b : Char) (t : Text) :
    commonRow (b :: t) s = common s (b :: t) :: commonRow t s := by
  induction s with
  | nil => rfl
  | cons a s ih =>
      rw [common, commonRow, commonRow, ih]
      rfl

@[simp] theorem common_nil_left (t : Text) : common [] t = 0 := rfl

@[simp] theorem common_nil_right (s : Text) : common s [] = 0 := by
  cases s <;> rfl

theorem common_cons_cons (a b : Char) (s t : Text) :
    common (a :: s) (b :: t) =
      if a = b then common s t + 1 else max (common s (b :: t)) (common (a :: s) t) := by
  rw [common, commonRow, commonRow_cons]
  rfl

theorem length_le_common {u s t : Text} (hs : u.Sublist s) (ht : u.Sublist t) :
    u.length ≤ common s t := by
  induction s generalizing u t with
  | nil => rw [List.sublist_nil.1 hs, List.length_nil, common_nil_left]
  | cons a s ihs =>
      induction t generalizing u with
      | nil => rw [List.sublist_nil.1 ht, List.length_nil, common_nil_right]
      | cons b t iht =>
          rw [common_cons_cons]
          by_cases hab : a = b
          · rw [if_pos hab]
            have htail : u.tail.length ≤ common s t := ihs hs.tail ht.tail
            rw [List.length_tail] at htail
            omega
          · rw [if_neg hab]
            rcases List.sublist_cons_iff.1 hs with hs' | ⟨v, rfl, -⟩
            · exact (ihs hs' ht).trans (le_max_left _ _)
            · -- The subsequence starts with `a`, so the other text's `b` is not in it.
              rcases List.sublist_cons_iff.1 ht with ht' | ⟨w, hw, -⟩
              · exact (iht hs ht').trans (le_max_right _ _)
              · exact absurd (List.cons.inj hw).1 hab

theorem isGreatest_common (s t : Text) :
    IsGreatest {n | ∃ u : Text, u.Sublist s ∧ u.Sublist t ∧ u.length = n} (common s t) := by
  refine ⟨exists_sublist_common s t, ?_⟩
  rintro n ⟨u, hus, hut, rfl⟩
  exact length_le_common hus hut

theorem common_le_length_left (s t : Text) : common s t ≤ s.length := by
  obtain ⟨u, hus, -, hu⟩ := exists_sublist_common s t
  exact hu ▸ hus.length_le

theorem common_comm (s t : Text) : common s t = common t s := by
  have hle (s t : Text) : common s t ≤ common t s := by
    obtain ⟨u, hus, hut, hu⟩ := exists_sublist_common s t
    exact hu ▸ length_le_common hut hus
  exact le_antisymm (hle s t) (hle t s)

theorem common_le_length_right (s t : Text) : common s t ≤ t.length :=
  common_comm s t ▸ common_le_length_left t s

theorem common_self (s : Text) : common s s = s.length :=
  le_antisymm (common_le_length_left s s)
    (length_le_common (List.Sublist.refl s) (List.Sublist.refl s))

theorem common_eq_zero_iff {s t : Text} : common s t = 0 ↔ s.Disjoint t := by
  constructor
  · intro h x hxs hxt
    have hle := length_le_common (List.singleton_sublist.2 hxs) (List.singleton_sublist.2 hxt)
    rw [h, List.length_singleton] at hle
    omega
  · intro h
    obtain ⟨u, hus, hut, hu⟩ := exists_sublist_common s t
    rw [← hu, List.length_eq_zero_iff, List.eq_nil_iff_forall_not_mem]
    exact fun x hx => h (hus.subset hx) (hut.subset hx)

/-- Two subsequences of one text that are together longer than it share the difference. -/
theorem exists_shared {u v t : Text} (hu : u.Sublist t) (hv : v.Sublist t) :
    ∃ w : Text, w.Sublist u ∧ w.Sublist v ∧ u.length + v.length ≤ t.length + w.length := by
  induction hu generalizing v with
  | slnil =>
      obtain rfl := List.sublist_nil.1 hv
      exact ⟨[], List.Sublist.refl [], List.Sublist.refl [], le_rfl⟩
  | @cons u t x _ ih =>
      rcases List.sublist_cons_iff.1 hv with hv' | ⟨v, rfl, hv'⟩
      · obtain ⟨w, hwu, hwv, hle⟩ := ih hv'
        exact ⟨w, hwu, hwv, by rw [List.length_cons]; omega⟩
      · obtain ⟨w, hwu, hwv, hle⟩ := ih hv'
        exact ⟨w, hwu, hwv.cons x, by rw [List.length_cons, List.length_cons]; omega⟩
  | @cons_cons u t x _ ih =>
      rcases List.sublist_cons_iff.1 hv with hv' | ⟨v, rfl, hv'⟩
      · obtain ⟨w, hwu, hwv, hle⟩ := ih hv'
        exact ⟨w, hwu.cons x, hwv, by rw [List.length_cons, List.length_cons]; omega⟩
      · obtain ⟨w, hwu, hwv, hle⟩ := ih hv'
        exact ⟨x :: w, hwu.cons_cons x, hwv.cons_cons x, by simp only [List.length_cons]; omega⟩

theorem common_add_common_le (s t r : Text) :
    common s t + common t r ≤ t.length + common s r := by
  obtain ⟨u, hus, hut, hu⟩ := exists_sublist_common s t
  obtain ⟨v, hvt, hvr, hv⟩ := exists_sublist_common t r
  obtain ⟨w, hwu, hwv, hle⟩ := exists_shared hut hvt
  calc common s t + common t r = u.length + v.length := by rw [hu, hv]
    _ ≤ t.length + w.length := hle
    _ ≤ t.length + common s r :=
        Nat.add_le_add_left (length_le_common (hwu.trans hus) (hwv.trans hvr)) _

theorem indel_add_common (s t : Text) : indel s t + 2 * common s t = s.length + t.length := by
  have hs := common_le_length_left s t
  have ht := common_le_length_right s t
  rw [indel]
  omega

/-- A distance in whole steps. -/
structure IsMetric {β : Type} (d : β → β → ℕ) : Prop where
  eq_zero_iff (x y : β) : d x y = 0 ↔ x = y
  symm (x y : β) : d x y = d y x
  triangle (x y z : β) : d x z ≤ d x y + d y z

theorem isMetric_indel : IsMetric indel where
  eq_zero_iff s t := by
    refine ⟨eq_of_indel_eq_zero, ?_⟩
    rintro rfl
    have h := indel_add_common s s
    rw [common_self] at h
    omega
  symm s t := by rw [indel, indel, common_comm, Nat.add_comm]
  triangle s t r := by
    have hle := common_add_common_le s t r
    have hst := indel_add_common s t
    have htr := indel_add_common t r
    have hsr := indel_add_common s r
    omega

/-- A degree of likeness, from texts without a common character up to equal ones. -/
structure IsLikeness (f : Text → Text → ℚ) : Prop where
  symm (s t : Text) : f s t = f t s
  nonneg (s t : Text) : 0 ≤ f s t
  le_one (s t : Text) : f s t ≤ 1
  eq_one_iff (s t : Text) : f s t = 1 ↔ s = t
  eq_zero_iff (s t : Text) : f s t = 0 ↔ s ≠ t ∧ s.Disjoint t

namespace Rounded

theorem val_similarity (s t : Text) :
    (similarity s t : Rounded .exact).val = 1 - indel s t / (s.length + t.length : ℕ) := by
  rw [similarity]
  split_ifs with h
  · rw [(isMetric_indel.eq_zero_iff s t).2 h, val_ofNat_one, Nat.cast_zero, zero_div, sub_zero]
  · rw [val_sub_exact, val_ofNat_one, val_quotient_exact]

theorem val_similarity_eq_one_iff {s t : Text} :
    (similarity s t : Rounded .exact).val = 1 ↔ s = t := by
  rw [val_similarity, sub_eq_self, div_eq_zero_iff, Nat.cast_eq_zero, Nat.cast_eq_zero,
    isMetric_indel.eq_zero_iff]
  constructor
  · rintro (h | hempty)
    · exact h
    · by_contra hne
      exact (length_add_pos hne).ne' hempty
  · exact .inl

theorem val_similarity_eq_zero_iff {s t : Text} :
    (similarity s t : Rounded .exact).val = 0 ↔ s ≠ t ∧ s.Disjoint t := by
  by_cases h : s = t
  · subst h
    rw [val_similarity_eq_one_iff.2 rfl]
    simp
  · have hpos : ((s.length + t.length : ℕ) : ℚ) ≠ 0 := by
      exact_mod_cast (length_add_pos h).ne'
    have hsum := indel_add_common s t
    rw [val_similarity, sub_eq_zero, eq_comm, div_eq_one_iff_eq hpos, Nat.cast_inj,
      ← common_eq_zero_iff]
    constructor
    · exact fun hfull => ⟨h, by omega⟩
    · rintro ⟨-, hnone⟩
      omega

theorem isLikeness_similarity :
    IsLikeness fun s t => (similarity s t : Rounded .exact).val where
  symm s t := by rw [val_similarity, val_similarity, isMetric_indel.symm, Nat.add_comm]
  nonneg s t := (val_similarity_mem s t).1
  le_one s t := (val_similarity_mem s t).2
  eq_one_iff s t := val_similarity_eq_one_iff
  eq_zero_iff s t := val_similarity_eq_zero_iff

end Rounded

/-- Distance counts what a longest common subsequence leaves of both texts and is a metric;
similarity is its complement as a fraction and a degree of likeness. -/
theorem similarity_measures :
    (∀ s t : Text,
      IsGreatest {n | ∃ u : Text, u.Sublist s ∧ u.Sublist t ∧ u.length = n} (common s t) ∧
        indel s t + 2 * common s t = s.length + t.length ∧
        (similarity s t : Rounded .exact).val = 1 - indel s t / (s.length + t.length : ℕ)) ∧
      IsMetric indel ∧ IsLikeness fun s t => (similarity s t : Rounded .exact).val :=
  ⟨fun s t => ⟨isGreatest_common s t, indel_add_common s t, Rounded.val_similarity s t⟩,
    isMetric_indel, Rounded.isLikeness_similarity⟩

end Emend
