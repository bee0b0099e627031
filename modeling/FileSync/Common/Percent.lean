import Mathlib.Data.List.Basic
import Mathlib.Data.UInt
/-!
# Percent-encoding

A text is encoded character by character: those that are kept stand for
themselves, every byte of another's UTF-8 is written as `%` and two digits.
Decoding reads the bytes back and undoes the encoding as long as `%` itself
is not kept.
-/

namespace FileSync

namespace Percent

/-- A digit's character, in capitals. -/
def hexDigit (n : ℕ) : Char := if n < 10 then Char.ofNat (48 + n) else Char.ofNat (55 + n)

/-- The value of a digit. -/
def hexValue? (c : Char) : Option ℕ :=
  if 48 ≤ c.toNat ∧ c.toNat ≤ 57 then some (c.toNat - 48)
  else if 65 ≤ c.toNat ∧ c.toNat ≤ 70 then some (c.toNat - 55)
  else if 97 ≤ c.toNat ∧ c.toNat ≤ 102 then some (c.toNat - 87)
  else none

/-- What escapes are made of. -/
def isEscape (c : Char) : Bool :=
  c = '%' || (48 ≤ c.toNat ∧ c.toNat ≤ 57) || (65 ≤ c.toNat ∧ c.toNat ≤ 70)

def escapeByte (b : UInt8) : List Char :=
  ['%', hexDigit (b.toNat / 16), hexDigit (b.toNat % 16)]

variable (keep : Char → Bool)

def encodeChar (c : Char) : List Char :=
  if keep c then [c] else (String.utf8EncodeChar c).flatMap escapeByte

def encodeChars (cs : List Char) : List Char := cs.flatMap (encodeChar keep)

/-- The bytes a text stands for; a `%` that no two digits follow stands for
itself. -/
def bytes : List Char → List UInt8
  | '%' :: a :: b :: cs =>
    match hexValue? a, hexValue? b with
    | some x, some y => UInt8.ofNat (16 * x + y) :: bytes cs
    | _, _ => String.utf8EncodeChar '%' ++ bytes (a :: b :: cs)
  | c :: cs => String.utf8EncodeChar c ++ bytes cs
  | [] => []

def encode (s : String) : String := String.ofList (encodeChars keep s.toList)

/-- `none` where the bytes are no UTF-8. -/
def decode (s : String) : Option String := String.fromUTF8? (bytes s.toList).toByteArray

/-! ## Digits -/

theorem hexValue_hexDigit {n : ℕ} (h : n < 16) : hexValue? (hexDigit n) = some n := by
  revert n
  decide

theorem isEscape_hexDigit {n : ℕ} (h : n < 16) : isEscape (hexDigit n) = true := by
  revert n
  decide

theorem bytes_escapeByte (b : UInt8) (cs : List Char) :
    bytes (escapeByte b ++ cs) = b :: bytes cs := by
  have hb : b.toNat < 256 := b.toNat_lt
  have hhigh := hexValue_hexDigit (n := b.toNat / 16) (by omega)
  have hlow := hexValue_hexDigit (n := b.toNat % 16) (by omega)
  have hbyte : UInt8.ofNat (16 * (b.toNat / 16) + b.toNat % 16) = b := by
    rw [Nat.div_add_mod, UInt8.ofNat_toNat]
  simp only [escapeByte, List.cons_append, List.nil_append, bytes, hhigh, hlow, hbyte]

theorem isEscape_of_mem_escapeByte {b : UInt8} {c : Char} (h : c ∈ escapeByte b) :
    isEscape c = true := by
  have hb : b.toNat < 256 := b.toNat_lt
  simp only [escapeByte, List.mem_cons, List.not_mem_nil, or_false] at h
  rcases h with rfl | rfl | rfl
  · rfl
  · exact isEscape_hexDigit (by omega)
  · exact isEscape_hexDigit (by omega)

/-! ## Encoding -/

@[simp] theorem encodeChars_nil : encodeChars keep [] = [] := rfl

@[simp] theorem encodeChars_append (cs ds : List Char) :
    encodeChars keep (cs ++ ds) = encodeChars keep cs ++ encodeChars keep ds :=
  List.flatMap_append

theorem encode_append (s t : String) : encode keep (s ++ t) = encode keep s ++ encode keep t := by
  simp [encode, String.toList_append]

variable {keep}

theorem encodeChar_of_keep {c : Char} (h : keep c = true) : encodeChar keep c = [c] := if_pos h

theorem encodeChar_ne_nil (c : Char) : encodeChar keep c ≠ [] := by
  unfold encodeChar
  split
  · exact List.cons_ne_nil _ _
  · intro h
    rw [List.flatMap_eq_nil_iff] at h
    obtain ⟨b, hb⟩ := List.exists_mem_of_ne_nil _ (String.utf8EncodeChar_ne_nil (c := c))
    exact absurd (h b hb) (List.cons_ne_nil _ _)

theorem isEscape_of_mem_encodeChar {c d : Char} (hc : keep c = false) (h : d ∈ encodeChar keep c) :
    isEscape d = true := by
  rw [encodeChar, hc] at h
  obtain ⟨b, -, hd⟩ := List.mem_flatMap.1 h
  exact isEscape_of_mem_escapeByte hd

/-! ## Decoding -/

theorem bytes_cons_of_ne {c : Char} (h : c ≠ '%') (cs : List Char) :
    bytes (c :: cs) = String.utf8EncodeChar c ++ bytes cs := by
  rw [bytes]
  rintro _ _ _ rfl
  exact absurd rfl h

theorem bytes_escapes (bs : List UInt8) (cs : List Char) :
    bytes (bs.flatMap escapeByte ++ cs) = bs ++ bytes cs := by
  induction bs with
  | nil => rfl
  | cons b bs ih => rw [List.flatMap_cons, List.append_assoc, bytes_escapeByte, ih, List.cons_append]

theorem bytes_encodeChar (h : keep '%' = false) (c : Char) (cs : List Char) :
    bytes (encodeChar keep c ++ cs) = String.utf8EncodeChar c ++ bytes cs := by
  unfold encodeChar
  split
  · rename_i hc
    have hne : c ≠ '%' := by
      rintro rfl
      rw [h] at hc
      cases hc
    exact bytes_cons_of_ne hne cs
  · exact bytes_escapes _ cs

theorem bytes_encodeChars (h : keep '%' = false) (cs : List Char) :
    bytes (encodeChars keep cs) = cs.flatMap String.utf8EncodeChar := by
  induction cs with
  | nil => rfl
  | cons c cs ih =>
    rw [encodeChars, List.flatMap_cons, List.flatMap_cons, bytes_encodeChar h]
    exact congrArg _ ih

/-- **Decoding undoes encoding.** -/
theorem decode_encode (h : keep '%' = false) (s : String) : decode (encode keep s) = some s := by
  have hbytes : (bytes (encode keep s).toList).toByteArray = s.toByteArray := by
    rw [encode, String.toList_ofList, bytes_encodeChars h, ← String.utf8Encode_toList]
    rfl
  unfold decode String.fromUTF8?
  rw [hbytes, dif_pos s.isValidUTF8]
  rfl

/-- The characters every URL may hold. -/
def isUnreserved (c : Char) : Bool :=
  c.isAlphanum || c = '-' || c = '.' || c = '_' || c = '~'

end Percent

/-- A library that escapes every character but the unreserved ones, and
reads escapes back. -/
structure UrlEncoding where
  encode : String → String
  decode : String → Option String
  encode_append : ∀ s t, encode (s ++ t) = encode s ++ encode t
  encode_unreserved : ∀ c, Percent.isUnreserved c = true →
    encode (String.singleton c) = String.singleton c
  encode_reserved : ∀ c, Percent.isUnreserved c = false →
    (encode (String.singleton c)).toList ≠ [] ∧
      ∀ d ∈ (encode (String.singleton c)).toList, Percent.isEscape d = true
  decode_encode : ∀ s, decode (encode s) = some s

namespace UrlEncoding

open Percent

/-- The library that does what the definitions above say. -/
def percent : UrlEncoding where
  encode := Percent.encode isUnreserved
  decode := Percent.decode
  encode_append := Percent.encode_append isUnreserved
  encode_unreserved c h := by
    rw [Percent.encode, encodeChars, String.toList_singleton, List.flatMap_singleton,
      encodeChar_of_keep h, String.singleton_eq_ofList]
  encode_reserved c h := by
    rw [Percent.encode, encodeChars, String.toList_singleton, List.flatMap_singleton,
      String.toList_ofList]
    exact ⟨encodeChar_ne_nil c, fun d hd => isEscape_of_mem_encodeChar h hd⟩
  decode_encode := Percent.decode_encode rfl

variable (E : UrlEncoding)

theorem encode_injective {s t : String} (h : E.encode s = E.encode t) : s = t := by
  have hdecode := E.decode_encode s
  rw [h, E.decode_encode t] at hdecode
  exact (Option.some.inj hdecode).symm

theorem encode_empty : E.encode "" = "" := by
  have h := E.encode_append "" ""
  rw [String.append_empty] at h
  have hlen : (E.encode "").toList.length = (E.encode "" ++ E.encode "").toList.length :=
    congrArg (fun s : String => s.toList.length) h
  rw [String.toList_append, List.length_append] at hlen
  exact String.toList_eq_nil_iff.1 (List.length_eq_zero_iff.1 (by omega))

/-- The characters a list of them is encoded to. -/
def chars (cs : List Char) : List Char := (E.encode (String.ofList cs)).toList

theorem chars_append (cs ds : List Char) : E.chars (cs ++ ds) = E.chars cs ++ E.chars ds := by
  rw [chars, String.ofList_append, E.encode_append, String.toList_append]
  rfl

theorem chars_nil : E.chars [] = [] := by
  have hempty : String.ofList [] = "" := rfl
  rw [chars, hempty, E.encode_empty]
  rfl

theorem chars_singleton (c : Char) : E.chars [c] = (E.encode (String.singleton c)).toList := by
  rw [String.singleton_eq_ofList]
  rfl

theorem toList_encode (s : String) : (E.encode s).toList = E.chars s.toList := by
  rw [chars, String.ofList_toList]

/-- What an encoded text is made of. -/
theorem unreserved_or_escape (cs : List Char) :
    ∀ c ∈ E.chars cs, isUnreserved c = true ∨ isEscape c = true := by
  induction cs with
  | nil =>
    rw [E.chars_nil]
    intro c hc
    cases hc
  | cons d cs ih =>
    intro c hc
    rw [← List.singleton_append, E.chars_append, List.mem_append, E.chars_singleton] at hc
    rcases hc with hc | hc
    · cases hd : isUnreserved d
      · exact .inr ((E.encode_reserved d hd).2 c hc)
      · rw [E.encode_unreserved d hd, String.toList_singleton, List.mem_singleton] at hc
        exact .inl (hc ▸ hd)
    · exact ih c hc

theorem concat_suffix_concat {l m : List Char} {a b : Char} :
    l ++ [a] <:+ m ++ [b] ↔ a = b ∧ l <:+ m := by
  rw [List.suffix_concat_iff]
  constructor
  · rintro (h | ⟨t, h, ht⟩)
    · exact absurd h (List.append_ne_nil_of_right_ne_nil _ (List.cons_ne_nil _ _))
    · obtain ⟨rfl, hab⟩ := List.append_inj' h rfl
      exact ⟨List.singleton_inj.1 hab, ht⟩
  · rintro ⟨rfl, h⟩
    exact .inr ⟨l, rfl, h⟩

/-- **An ending that no escape can be read into** is an encoded text's if and
only if it is the text's. -/
theorem suffix_encode {suffix : List Char}
    (h : ∀ c ∈ suffix, isUnreserved c = true ∧ isEscape c = false) (cs : List Char) :
    suffix <:+ E.chars cs ↔ suffix <:+ cs := by
  induction suffix using List.reverseRecOn generalizing cs with
  | nil => simp
  | append_singleton suffix d ih =>
    have hsuffix := ih fun c hc => h c (List.mem_append_left _ hc)
    obtain ⟨hd, hescape⟩ := h d (List.mem_append_right _ List.mem_cons_self)
    rcases List.eq_nil_or_concat cs with rfl | ⟨cs, c, rfl⟩
    · rw [E.chars_nil]
    rw [List.concat_eq_append, E.chars_append, E.chars_singleton, concat_suffix_concat]
    cases hc : isUnreserved c
    · -- the encoded text ends in an escape, the text in a reserved character
      obtain ⟨hne, hall⟩ := E.encode_reserved c hc
      obtain ⟨es, e, hes⟩ := (List.eq_nil_or_concat _).resolve_left hne
      rw [hes, List.concat_eq_append] at hall ⊢
      have hde : d ≠ e := by
        rintro rfl
        rw [hall d (List.mem_append_right _ List.mem_cons_self)] at hescape
        cases hescape
      have hdc : d ≠ c := by
        rintro rfl
        rw [hc] at hd
        cases hd
      rw [← List.append_assoc, concat_suffix_concat]
      simp [hde, hdc]
    · rw [E.encode_unreserved c hc, String.toList_singleton, concat_suffix_concat, hsuffix]

end UrlEncoding

end FileSync
