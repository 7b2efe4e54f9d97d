import Mathlib.Data.List.Induction

/-! Many streams merged into one. Every element carries a label, its stream, and
the streams number their elements from one common count. A list that takes the
numbers one by one takes each stream from its beginning, in its order. -/
namespace Ringio.Interleaving

variable {ι α : Type} [DecidableEq ι]

/-- The elements with this label. -/
def ofLabel (labelled : List (ι × α)) (i : ι) : List α :=
  (labelled.filter (·.1 = i)).map Prod.snd

theorem ofLabel_concat_self (labelled : List (ι × α)) (i : ι) (a : α) :
    ofLabel (labelled ++ [(i, a)]) i = ofLabel labelled i ++ [a] := by
  simp [ofLabel]

theorem ofLabel_concat_other (labelled : List (ι × α)) {i j : ι} (other : j ≠ i) (a : α) :
    ofLabel (labelled ++ [(j, a)]) i = ofLabel labelled i := by
  simp [ofLabel, other]

theorem ofLabel_sublist {some_ all : List (ι × α)} (part : some_.Sublist all) (i : ι) :
    (ofLabel some_ i).Sublist (ofLabel all i) :=
  (part.filter _).map _

/-! ## Streams numbered from one count -/

theorem below_first {numbered : List (ℕ × α)} (increasing : numbered.Pairwise (·.1 < ·.1))
    (n : ℕ) : numbered.filter (·.1 < n) <+: numbered := by
  induction numbered with
  | nil => exact List.prefix_refl _
  | cons first rest ih =>
    obtain ⟨before, later⟩ := List.pairwise_cons.mp increasing
    by_cases low : first.1 < n
    · rw [List.filter_cons_of_pos (by simpa using low)]
      exact List.cons_prefix_cons.mpr ⟨rfl, ih later⟩
    · have none : rest.filter (·.1 < n) = [] := by
        refine List.filter_eq_nil_iff.mpr fun entry member => ?_
        have after := before entry member
        simp only [decide_eq_true_eq]
        omega
      rw [List.filter_cons_of_neg (by simpa using low), none]
      exact List.nil_prefix

/-- The next number comes right after those below it. -/
theorem below_succ {numbered : List (ℕ × α)} (increasing : numbered.Pairwise (·.1 < ·.1))
    {n : ℕ} {a : α} (member : (n, a) ∈ numbered) :
    numbered.filter (·.1 < n + 1) = numbered.filter (·.1 < n) ++ [(n, a)] := by
  induction numbered with
  | nil => cases member
  | cons first rest ih =>
    obtain ⟨before, later⟩ := List.pairwise_cons.mp increasing
    rcases List.mem_cons.mp member with rfl | among
    · have none (m : ℕ) (low : m ≤ n + 1) : rest.filter (·.1 < m) = [] := by
        refine List.filter_eq_nil_iff.mpr fun entry found => ?_
        have after := before entry found
        simp only [decide_eq_true_eq] at after ⊢
        omega
      rw [List.filter_cons_of_pos (by simp), List.filter_cons_of_neg (by simp),
        none _ (Nat.le_refl _), none n (Nat.le_succ n)]
      rfl
    · have low : first.1 < n := before _ among
      rw [List.filter_cons_of_pos (by simp; omega), List.filter_cons_of_pos (by simpa using low),
        ih later among]
      rfl

theorem below_succ_of_absent {numbered : List (ℕ × α)} {n : ℕ}
    (absent : ∀ entry ∈ numbered, entry.1 ≠ n) :
    numbered.filter (·.1 < n + 1) = numbered.filter (·.1 < n) := by
  refine List.filter_congr fun entry member => ?_
  have other := absent entry member
  simp only [decide_eq_decide]
  omega

/-- **A list that takes the numbers in turn is an interleaving of what the streams
have below its length.** -/
theorem labelled_of_numbered {streams : ι → List (ℕ × α)}
    (increasing : ∀ i, (streams i).Pairwise (·.1 < ·.1))
    (apart : ∀ i j, ∀ x ∈ streams i, ∀ y ∈ streams j, x.1 = y.1 → i = j) (merged : List α)
    (taken : ∀ n a, merged[n]? = some a → ∃ i, (n, a) ∈ streams i) :
    ∃ labelled : List (ι × α), labelled.map Prod.snd = merged ∧
      ∀ i, ofLabel labelled i = ((streams i).filter (·.1 < merged.length)).map Prod.snd := by
  induction merged using List.reverseRecOn with
  | nil => exact ⟨[], rfl, fun i => by simp [ofLabel]⟩
  | append_singleton merged a ih =>
    obtain ⟨labelled, elements, streamed⟩ := ih fun n b found =>
      taken n b (List.getElem?_append_left (List.getElem?_eq_some_iff.mp found).1 ▸ found)
    obtain ⟨owner, member⟩ := taken merged.length a List.getElem?_concat_length
    refine ⟨labelled ++ [(owner, a)], by simp [elements], fun i => ?_⟩
    rw [List.length_append, List.length_singleton]
    by_cases own : owner = i
    · subst own
      rw [ofLabel_concat_self, streamed, below_succ (increasing owner) member, List.map_append]
      rfl
    · rw [ofLabel_concat_other _ own, streamed, below_succ_of_absent]
      intro entry found same
      exact own (apart owner i _ member entry found same.symm)

end Ringio.Interleaving
