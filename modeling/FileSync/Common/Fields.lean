import Mathlib.Data.List.DropRight
/-!
# Fields of a list

A list is split into fields at a separator, and each field is stripped of
what pads it at both ends. A field is what stands between two separators,
or between one and an end of the list; what is left of it neither begins nor
ends with padding.
-/

namespace FileSync

namespace Fields

variable {α : Type*} {p : α → Bool} {xs ys ws ws' : List α}

/-- The list without the padding at its ends. -/
def strip (p : α → Bool) (xs : List α) : List α := (xs.dropWhile p).rdropWhile p

/-- The list neither begins nor ends with padding. -/
structure Bare (p : α → Bool) (ys : List α) : Prop where
  head : ∀ h : ys ≠ [], ¬ p (ys.head h) = true
  last : ∀ h : ys ≠ [], ¬ p (ys.getLast h) = true

theorem rdropWhile_append_of_all (h : ∀ x ∈ ws, p x = true) :
    (xs ++ ws).rdropWhile p = xs.rdropWhile p := by
  induction ws using List.reverseRecOn with
  | nil => rw [List.append_nil]
  | append_singleton ws x ih =>
    rw [← List.append_assoc, List.rdropWhile_concat_pos _ _ _ (h x (by simp))]
    exact ih fun y hy => h y (List.mem_append_left _ hy)

theorem exists_rdropWhile (p : α → Bool) (xs : List α) :
    ∃ ws, xs = xs.rdropWhile p ++ ws ∧ ∀ x ∈ ws, p x = true :=
  ⟨xs.rtakeWhile p, List.rdropWhile_append_rtakeWhile.symm,
    fun _ hx => List.mem_rtakeWhile_imp hx⟩

theorem strip_eq_self (h : Bare p ys) : strip p ys = ys := by
  have hdrop : ys.dropWhile p = ys := List.dropWhile_eq_self_iff.2 fun hl => by
    have hhead := h.head (List.ne_nil_of_length_pos hl)
    rwa [List.head_eq_getElem] at hhead
  rw [strip, hdrop]
  exact (List.rdropWhile_eq_self_iff).2 h.last

theorem bare_strip (p : α → Bool) (xs : List α) : Bare p (strip p xs) := by
  refine ⟨fun h => ?_, fun h => List.rdropWhile_last_not p _ h⟩
  -- it begins as what the padding was dropped from in front
  obtain ⟨ws, hws, -⟩ := exists_rdropWhile p (xs.dropWhile p)
  have hne : xs.dropWhile p ≠ [] := by
    intro hnil
    exact h (by rw [strip, hnil, List.rdropWhile_nil])
  have hhead := List.head_dropWhile_not p hne
  have heq : (xs.dropWhile p).head hne = (strip p xs).head h := by
    have hsame : (xs.dropWhile p).head? = (strip p xs).head? := by
      conv_lhs => rw [hws]
      exact List.head?_append_of_ne_nil _ h
    rwa [List.head?_eq_some_head hne, List.head?_eq_some_head h, Option.some_inj] at hsame
  rw [← heq, hhead]
  exact Bool.false_ne_true

/-- **What is left** of a field is what stands in it between padding. -/
theorem strip_eq_iff : strip p xs = ys ↔
    Bare p ys ∧ ∃ ws ws', xs = ws ++ ys ++ ws' ∧ (∀ x ∈ ws, p x = true) ∧ ∀ x ∈ ws', p x = true := by
  constructor
  · rintro rfl
    refine ⟨bare_strip p xs, xs.takeWhile p, ?_⟩
    obtain ⟨ws', hrest, hws'⟩ := exists_rdropWhile p (xs.dropWhile p)
    refine ⟨ws', ?_, fun x hx => List.mem_takeWhile_imp hx, hws'⟩
    rw [List.append_assoc]
    conv_lhs => rw [← List.takeWhile_append_dropWhile (p := p) (l := xs), hrest]
    rfl
  · rintro ⟨hbare, ws, ws', rfl, hws, hws'⟩
    have hfront : (ws ++ ys ++ ws').dropWhile p = (ys ++ ws').dropWhile p := by
      rw [List.append_assoc, List.dropWhile_append_of_pos hws]
    rw [strip, hfront]
    rcases eq_or_ne ys [] with rfl | hne
    · -- there is nothing but padding
      have hnil : ws'.dropWhile p = [] := List.dropWhile_eq_nil_iff.2 hws'
      rw [List.nil_append, hnil, List.rdropWhile_nil]
    · have hkeep : (ys ++ ws').dropWhile p = ys.dropWhile p ++ ws' := by
        rw [List.dropWhile_append, if_neg]
        intro h
        have hall := List.dropWhile_eq_nil_iff.1 (List.isEmpty_iff.1 h)
        exact hbare.head hne (hall _ (List.head_mem hne))
      rw [hkeep, rdropWhile_append_of_all hws']
      exact strip_eq_self hbare

variable [BEq α] [LawfulBEq α] {a : α} {f : List α}

/-- **A field** stands between two separators, or one and an end. -/
theorem mem_splitOn_iff : f ∈ xs.splitOn a ↔ a ∉ f ∧ ∃ pre post, xs = pre ++ f ++ post ∧
    (pre = [] ∨ ∃ pre', pre = pre' ++ [a]) ∧ (post = [] ∨ ∃ post', post = a :: post') := by
  constructor
  · intro h
    -- the induction is on what is left after the first separator
    induction hn : xs.length using Nat.strong_induction_on generalizing xs with
    | _ n ih =>
      by_cases ha : a ∈ xs
      · obtain ⟨first, rest, rfl, hfirst⟩ := List.eq_append_cons_of_mem ha
        rw [List.splitOn_append_cons_self_of_not_mem hfirst] at h
        rcases List.mem_cons.1 h with rfl | h
        · exact ⟨hfirst, [], a :: rest, rfl, .inl rfl, .inr ⟨rest, rfl⟩⟩
        · have hshorter : rest.length < n := by
            rw [← hn, List.length_append, List.length_cons]
            omega
          obtain ⟨hf, pre, post, rfl, hpre, hpost⟩ := ih _ hshorter h rfl
          refine ⟨hf, first ++ a :: pre, post, by simp, .inr ?_, hpost⟩
          rcases hpre with rfl | ⟨pre', rfl⟩
          exacts [⟨first, rfl⟩, ⟨first ++ a :: pre', by simp⟩]
      · rw [List.splitOn_eq_singleton ha] at h
        obtain rfl := List.mem_singleton.1 h
        exact ⟨ha, [], [], by simp, .inl rfl, .inl rfl⟩
  · rintro ⟨hf, pre, post, rfl, hpre, hpost⟩
    have hlast : f ∈ (f ++ post).splitOn a := by
      rcases hpost with rfl | ⟨post', rfl⟩
      · rw [List.append_nil, List.splitOn_eq_singleton hf]
        exact List.mem_singleton_self f
      · rw [List.splitOn_append_cons_self, List.splitOn_eq_singleton hf]
        exact List.mem_append_left _ (List.mem_singleton_self f)
    rcases hpre with rfl | ⟨pre', rfl⟩
    · exact hlast
    · rw [show pre' ++ [a] ++ f ++ post = pre' ++ a :: (f ++ post) by simp,
        List.splitOn_append_cons_self]
      exact List.mem_append_right _ hlast

end Fields

end FileSync
