import Mathlib.Algebra.Group.Nat.Defs
import Mathlib.Data.UInt
/-!
# Bytes and digits

A text is told by its bytes and a number by its digits, and of two lists that
are joined by a separator each is told by the whole.
-/

namespace FileSync

namespace Bytes

variable {α : Type*} {x : α} {a b s t : List α}

/-- What is left of a byte array to be listed, after what was listed. -/
theorem toList_loop (bytes : ByteArray) (i : ℕ) (r : List UInt8) :
    ByteArray.toList.loop bytes i r = r.reverse ++ bytes.data.toList.drop i := by
  fun_induction ByteArray.toList.loop bytes i r with
  | case1 i r hi ih =>
    have hget : bytes.get! i = bytes.data.toList[i] := by simp [ByteArray.get!, hi]
    rw [ih, List.reverse_cons, List.append_assoc, List.singleton_append, hget,
      ← List.drop_eq_getElem_cons]
  | case2 i r hi =>
    have hlen : bytes.data.toList.length ≤ i := by simpa using hi
    rw [List.drop_of_length_le hlen, List.append_nil]

theorem toList_eq_data (bytes : ByteArray) : bytes.toList = bytes.data.toList := by
  rw [ByteArray.toList, toList_loop]
  rfl

/-- Texts of the same bytes are the same. -/
theorem toUTF8_toList_injective {s t : String} (h : s.toUTF8.toList = t.toUTF8.toList) :
    s = t := by
  rw [toList_eq_data, toList_eq_data] at h
  exact String.toByteArray_inj.1 (ByteArray.ext (Array.toList_inj.1 h))

/-- What stands before the first separator, and after it. -/
theorem append_cons_inj (ha : x ∉ a) (hb : x ∉ b) (h : a ++ x :: s = b ++ x :: t) :
    a = b ∧ s = t := by
  induction a generalizing b with
  | nil =>
    cases b with
    | nil => exact ⟨rfl, (List.cons.inj h).2⟩
    | cons y b => exact absurd ((List.cons.inj h).1 ▸ List.mem_cons_self) hb
  | cons y a ih =>
    cases b with
    | nil => exact absurd ((List.cons.inj h).1 ▸ List.mem_cons_self) ha
    | cons z b =>
      obtain ⟨rfl, hrest⟩ := List.cons.inj h
      obtain ⟨rfl, rfl⟩ := ih (fun hmem => ha (List.mem_cons_of_mem _ hmem))
        (fun hmem => hb (List.mem_cons_of_mem _ hmem)) hrest
      exact ⟨rfl, rfl⟩

/-- A number is told by its digits. -/
theorem eq_of_digits {m n : ℕ} (k : ℕ) (hhigh : m / 256 ^ k = n / 256 ^ k)
    (hdigits : ∀ j < k, m / 256 ^ j % 256 = n / 256 ^ j % 256) : m = n := by
  induction k with
  | zero => simpa using hhigh
  | succ k ih =>
    refine ih ?_ fun j hj => hdigits j (by omega)
    have hdigit := hdigits k (by omega)
    rw [pow_succ, ← Nat.div_div_eq_div_mul, ← Nat.div_div_eq_div_mul] at hhigh
    omega

end Bytes

end FileSync
