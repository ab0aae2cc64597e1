/-
Deka/Jwt/Canonical.lean

The spellings that `from_base64` takes.

A text that is read is the text that is written for its bytes exactly when the last group has no
bits to spare: the low bits of the last character in front of the padding are not looked at.
-/
import Deka.Jwt.Base64

namespace Deka.Jwt

/-! ### Canonical texts -/

/-- The bits that the last character of a chunk has too many. -/
def spareBits (x y z : UInt8) : Nat :=
  if padOf y z = 2 then (alphabet.idxOf? x).getD 0 % 16
  else if padOf y z = 1 then (alphabet.idxOf? y).getD 0 % 4
  else 0

/-- The last chunk has no bits to spare. -/
def Canonical (text : Bytes) : Prop :=
  match text.drop (text.length - 4) with
  | [_, x, y, z] => spareBits x y z = 0
  | _ => True

instance (text : Bytes) : Decidable (Canonical text) := by
  unfold Canonical
  split <;> infer_instance

theorem canonical_chunk {w x y z : UInt8} : Canonical [w, x, y, z] ↔ spareBits x y z = 0 := Iff.rfl

theorem canonical_cons {w x y z : UInt8} {rest : Bytes} (h : 4 ≤ rest.length) :
    Canonical (w :: x :: y :: z :: rest) ↔ Canonical rest := by
  have hdrop : (w :: x :: y :: z :: rest).drop ((w :: x :: y :: z :: rest).length - 4) =
      rest.drop (rest.length - 4) := by
    obtain ⟨k, hk⟩ := Nat.exists_eq_add_of_le' h
    rw [List.length_cons, List.length_cons, List.length_cons, List.length_cons, hk]
    rfl
  rw [Canonical, hdrop, Canonical]

/-! ### The bits of a chunk -/

theorem sextet_lt {c : UInt8} {i : Nat} (h : alphabet.idxOf? c = some i) : i < 64 := by
  obtain ⟨hlt, -⟩ := List.idxOf?_eq_some_iff.mp h
  exact hlt

/-- A digit is a character when it stands for the same bits. -/
theorem digit_eq_iff {c : UInt8} {i : Nat} (h : alphabet.idxOf? c = some i) (n shift : Nat) :
    digit n shift = c ↔ bits n shift = i := by
  have hdigit := idxOf_digit n shift
  refine ⟨fun heq => ?_, fun heq => ?_⟩
  · rw [heq, h] at hdigit
    exact (Option.some.inj hdigit).symm
  · obtain ⟨hlt, hget, -⟩ := List.idxOf?_eq_some_iff.mp h
    have hbits : digit n shift = alphabet[bits n shift]! := rfl
    rw [hbits, heq, getElem!_pos alphabet i hlt]
    exact hget

theorem word_eq (n₁ : Nat) {n₂ n₃ n₄ : Nat} (h₂ : n₂ < 64) (h₃ : n₃ < 64) (h₄ : n₄ < 64) :
    word n₁ n₂ n₃ n₄ = ((n₁ * 64 + n₂) * 64 + n₃) * 64 + n₄ := by
  have hor : ∀ {a b : Nat}, b < 64 → a <<< 6 ||| b = a * 64 + b := fun hb => shiftLeft_or hb
  rw [word, hor h₂, hor h₃, hor h₄]

theorem byte_eq {n : Nat} (shift : Nat) : ((n >>> shift).toUInt8).toNat = n / 2 ^ shift % 256 := by
  rw [Nat.toUInt8_eq, UInt8.toNat_ofNat', Nat.shiftRight_eq_div_pow]

/-- What is left of a word when its low bytes are cut off. -/
theorem group_bytes {n : Nat} (h : n < 2 ^ 24) :
    group (n >>> 16).toUInt8 (n >>> 8).toUInt8 n.toUInt8 = n ∧
      group (n >>> 16).toUInt8 (n >>> 8).toUInt8 0 = n / 256 * 256 ∧
        group (n >>> 16).toUInt8 0 0 = n / 65536 * 65536 := by
  have hlast : n.toUInt8.toNat = n % 256 := by
    rw [Nat.toUInt8_eq, UInt8.toNat_ofNat']
  rw [group_eq, group_eq, group_eq, byte_eq, byte_eq, hlast, UInt8.toNat_zero]
  refine ⟨?_, ?_, ?_⟩ <;> omega

/-! ### Reading and writing again -/

/-- What a chunk that is read is made of. -/
theorem fromChunks_cons {w x y z : UInt8} {rest data : Bytes}
    (h : fromChunks (w :: x :: y :: z :: rest) = some data) :
    ∃ n₁ n₂ tail, alphabet.idxOf? w = some n₁ ∧ alphabet.idxOf? x = some n₂ ∧
      fromChunks rest = some tail ∧
      ((padOf y z = 2 ∧ y = ascii '=' ∧ z = ascii '=' ∧ rest = [] ∧
          data = wordBytes 2 (word n₁ n₂ 0 0)) ∨
        (∃ n₃, padOf y z = 1 ∧ alphabet.idxOf? y = some n₃ ∧ z = ascii '=' ∧ rest = [] ∧
          data = wordBytes 1 (word n₁ n₂ n₃ 0)) ∨
        ∃ n₃ n₄, padOf y z = 0 ∧ alphabet.idxOf? y = some n₃ ∧ alphabet.idxOf? z = some n₄ ∧
          data = wordBytes 0 (word n₁ n₂ n₃ n₄) ++ tail) := by
  rw [fromChunks] at h
  split at h
  · cases h
  · next hlast =>
    simp only [Option.bind_eq_bind, Option.bind_eq_some_iff] at h
    obtain ⟨n₁, h₁, n₂, h₂, n₃, h₃, n₄, h₄, tail, htail, heq⟩ := h
    have hpad : padOf y z = 2 ∧ y = ascii '=' ∧ z = ascii '=' ∨ padOf y z = 1 ∧ z = ascii '=' ∨
        padOf y z = 0 := by
      rw [padOf]
      split
      · next hyz => exact .inl ⟨rfl, hyz⟩
      · split
        · next hz => exact .inr (.inl ⟨rfl, hz⟩)
        · exact .inr (.inr rfl)
    have hrest : padOf y z ≠ 0 → rest = [] := fun hne =>
      not_not.mp fun hrest => hlast ⟨hne, hrest⟩
    have hsextet : ∀ {j : Nat} {byte : UInt8} {n : Nat}, sextet (padOf y z) j byte = some n →
        j < 4 - padOf y z → alphabet.idxOf? byte = some n := by
      intro j byte n hn hj
      rw [sextet, if_neg (by omega)] at hn
      exact hn
    have hzero : ∀ {j : Nat} {byte : UInt8} {n : Nat}, sextet (padOf y z) j byte = some n →
        4 - padOf y z ≤ j → n = 0 := by
      intro j byte n hn hj
      rw [sextet_pad hj] at hn
      exact (Option.some.inj hn).symm
    cases heq
    refine ⟨n₁, n₂, tail, hsextet h₁ (by omega), hsextet h₂ (by omega), htail, ?_⟩
    rcases hpad with ⟨hpad, hy, hz⟩ | ⟨hpad, hz⟩ | hpad
    · refine .inl ⟨hpad, hy, hz, hrest (by omega), ?_⟩
      have hnil := hrest (by omega)
      subst hnil
      cases htail
      rw [hpad, hzero h₃ (by omega), hzero h₄ (by omega), List.append_nil]
    · refine .inr (.inl ⟨n₃, hpad, hsextet h₃ (by omega), hz, hrest (by omega), ?_⟩)
      have hnil := hrest (by omega)
      subst hnil
      cases htail
      rw [hpad, hzero h₄ (by omega), List.append_nil]
    · refine .inr (.inr ⟨n₃, n₄, hpad, hsextet h₃ (by omega), hsextet h₄ (by omega), ?_⟩)
      rw [hpad]

/-- Two padding characters: four bits of the second character are lost. -/
theorem write_one {w x : UInt8} {n₁ n₂ : Nat} (h₁ : alphabet.idxOf? w = some n₁)
    (h₂ : alphabet.idxOf? x = some n₂) :
    toBase64 (wordBytes 2 (word n₁ n₂ 0 0)) = [w, x, ascii '=', ascii '='] ↔ n₂ % 16 = 0 := by
  have hlt₁ := sextet_lt h₁
  have hlt₂ := sextet_lt h₂
  have hzero : 0 < 64 := by decide
  have hword := word_eq n₁ hlt₂ hzero hzero
  have hgroup := (group_bytes (n := word n₁ n₂ 0 0) (by omega)).2.2
  show [digit (group _ 0 0) 18, digit (group _ 0 0) 12, ascii '=', ascii '='] = _ ↔ _
  rw [hgroup]
  simp only [List.cons.injEq, and_true, digit_eq_iff h₁, digit_eq_iff h₂, bits_eq, hword]
  omega

/-- One padding character: two bits of the third character are lost. -/
theorem write_two {w x y : UInt8} {n₁ n₂ n₃ : Nat} (h₁ : alphabet.idxOf? w = some n₁)
    (h₂ : alphabet.idxOf? x = some n₂) (h₃ : alphabet.idxOf? y = some n₃) :
    toBase64 (wordBytes 1 (word n₁ n₂ n₃ 0)) = [w, x, y, ascii '='] ↔ n₃ % 4 = 0 := by
  have hlt₁ := sextet_lt h₁
  have hlt₂ := sextet_lt h₂
  have hlt₃ := sextet_lt h₃
  have hzero : 0 < 64 := by decide
  have hword := word_eq n₁ hlt₂ hlt₃ hzero
  have hgroup := (group_bytes (n := word n₁ n₂ n₃ 0) (by omega)).2.1
  show [digit (group _ _ 0) 18, digit (group _ _ 0) 12, digit (group _ _ 0) 6, ascii '='] = _ ↔ _
  rw [hgroup]
  simp only [List.cons.injEq, and_true, digit_eq_iff h₁, digit_eq_iff h₂, digit_eq_iff h₃, bits_eq,
    hword]
  omega

/-- Without padding nothing is lost. -/
theorem write_three {w x y z : UInt8} {n₁ n₂ n₃ n₄ : Nat} (h₁ : alphabet.idxOf? w = some n₁)
    (h₂ : alphabet.idxOf? x = some n₂) (h₃ : alphabet.idxOf? y = some n₃)
    (h₄ : alphabet.idxOf? z = some n₄) (tail : Bytes) :
    toBase64 (wordBytes 0 (word n₁ n₂ n₃ n₄) ++ tail) = w :: x :: y :: z :: toBase64 tail := by
  have hlt₁ := sextet_lt h₁
  have hlt₂ := sextet_lt h₂
  have hlt₃ := sextet_lt h₃
  have hlt₄ := sextet_lt h₄
  have hword := word_eq n₁ hlt₂ hlt₃ hlt₄
  have hgroup := (group_bytes (n := word n₁ n₂ n₃ n₄) (by omega)).1
  show digit (group _ _ _) 18 :: digit (group _ _ _) 12 :: digit (group _ _ _) 6 ::
    digit (group _ _ _) 0 :: toBase64 tail = _
  rw [hgroup]
  simp only [List.cons.injEq, and_true, digit_eq_iff h₁, digit_eq_iff h₂, digit_eq_iff h₃,
    digit_eq_iff h₄, bits_eq, hword]
  omega

/-- A text that is read is written again for its bytes when it has no bits to spare. -/
theorem canonical_of_fromChunks {k : Nat} {text data : Bytes} (hlength : text.length = 4 * k)
    (h : fromChunks text = some data) : toBase64 data = text ↔ Canonical text := by
  induction k generalizing text data with
  | zero =>
    rw [List.length_eq_zero_iff.mp hlength] at h ⊢
    cases h
    exact ⟨fun _ => trivial, fun _ => rfl⟩
  | succ k ih =>
    match text, hlength, h with
    | w :: x :: y :: z :: rest, hlength, h =>
      have hrest : rest.length = 4 * k := by
        simp only [List.length_cons] at hlength
        omega
      obtain ⟨n₁, n₂, tail, h₁, h₂, htail, hdata⟩ := fromChunks_cons h
      rcases hdata with ⟨hpad, rfl, rfl, rfl, rfl⟩ | ⟨n₃, hpad, h₃, rfl, rfl, rfl⟩ |
        ⟨n₃, n₄, hpad, h₃, h₄, rfl⟩
      · rw [write_one h₁ h₂, canonical_chunk, spareBits, if_pos hpad, h₂]
        rfl
      · rw [write_two h₁ h₂ h₃, canonical_chunk, spareBits, if_neg (by omega), if_pos hpad, h₃]
        rfl
      · rw [write_three h₁ h₂ h₃ h₄]
        simp only [List.cons.injEq, true_and, ih hrest htail]
        cases k with
        | zero =>
          rw [List.length_eq_zero_iff.mp hrest, canonical_chunk, spareBits, if_neg (by omega),
            if_neg (by omega)]
          exact ⟨fun _ => rfl, fun _ => trivial⟩
        | succ k => exact (canonical_cons (by omega)).symm

theorem fromBase64_eq_some {text data : Bytes} (h : fromBase64 text = some data) :
    ∃ k, text.length = 4 * k ∧ fromChunks text = some data := by
  rw [fromBase64] at h
  split at h
  · cases h
  · next hlength => exact ⟨text.length / 4, by omega, h⟩

/-! ### The URL alphabet -/

/-- What a segment of a token is made of. -/
theorem validB64url_char {value : Bytes} (h : validB64url value = true) {c : UInt8} (hc : c ∈ value) :
    toUrl (ofUrl c) = c ∧ ofUrl c ≠ ascii '=' := by
  rw [validB64url, Bool.and_eq_true, Bool.and_eq_true, List.all_eq_true] at h
  have hvalid := h.2 c hc
  by_cases hminus : c = ascii '-'
  · subst hminus
    decide
  · by_cases hunder : c = ascii '_'
    · subst hunder
      decide
    · have hplain : ofUrl c = c := by
        rw [ofUrl, if_neg hminus, if_neg hunder]
      rw [hplain]
      refine ⟨?_, ?_⟩
      · rw [toUrl, if_neg, if_neg]
        · rintro rfl
          exact absurd hvalid (by decide)
        · rintro rfl
          exact absurd hvalid (by decide)
      · rintro rfl
        exact absurd hvalid (by decide)

theorem pad_eq (core : Bytes) : ∃ k, pad core = core ++ List.replicate k (ascii '=') := by
  refine ⟨(4 - core.length % 4) % 4, pad_append (by omega) (by omega)⟩

/-- A segment that is read is the segment that is written when its padded text is canonical. -/
theorem b64url_eq_iff {value data : Bytes} (hvalid : validB64url value = true)
    (h : decode value = .ok data) : b64url data = value ↔ Canonical (pad (value.map ofUrl)) := by
  rw [decode] at h
  split at h
  · next read hread =>
    cases h
    obtain ⟨k, hlength, hchunks⟩ := fromBase64_eq_some hread
    rw [← canonical_of_fromChunks hlength hchunks]
    refine ⟨fun heq => ?_, fun heq => ?_⟩
    · rw [← heq, pad_b64url]
    · obtain ⟨k, hpad⟩ := pad_eq (value.map ofUrl)
      have hend : ∀ hne : value.map ofUrl ≠ [],
          ¬ decide ((value.map ofUrl).getLast hne = ascii '=') = true := by
        intro hne hlast
        obtain ⟨c, hc, hget⟩ := List.mem_map.mp (List.getLast_mem hne)
        rw [← hget] at hlast
        exact (validB64url_char hvalid hc).2 (of_decide_eq_true hlast)
      rw [b64url, heq, hpad, rdropWhile_append _ (by simp), List.rdropWhile_eq_self_iff.mpr hend,
        List.map_map]
      conv_rhs => rw [← List.map_id value]
      exact List.map_congr_left fun c hc => (validB64url_char hvalid hc).1
  · cases h

/-- Reading inverts writing, and writing inverts reading where no bits are to spare: for base64, and
for the segments of a token. -/
theorem base64_inverse :
    (∀ data, fromBase64 (toBase64 data) = some data) ∧
      (∀ text data, fromBase64 text = some data → (toBase64 data = text ↔ Canonical text)) ∧
        ∀ value data, validB64url value = true → decode value = .ok data →
          (b64url data = value ↔ Canonical (pad (value.map ofUrl))) := by
  refine ⟨fromBase64_toBase64, fun text data h => ?_, fun value data => b64url_eq_iff⟩
  obtain ⟨k, hlength, hchunks⟩ := fromBase64_eq_some h
  exact canonical_of_fromChunks hlength hchunks

/-- The texts `Zg==` and `Zh==`. -/
theorem base64_inverse_f :
    (toBase64 [102] = "Zg==".toList.map ascii ↔ Canonical ("Zg==".toList.map ascii)) ∧
      (toBase64 [102] = "Zh==".toList.map ascii ↔ Canonical ("Zh==".toList.map ascii)) :=
  ⟨base64_inverse.2.1 _ _ (by decide), base64_inverse.2.1 _ _ (by decide)⟩

/-- Two texts, and two segments of a token, are read as the same byte. -/
theorem base64_not_inverse :
    fromBase64 ("Zh==".toList.map ascii) = some [102] ∧
      toBase64 [102] ≠ "Zh==".toList.map ascii ∧
        decode ("Zh".toList.map ascii) = .ok [102] ∧ decode ("Zg".toList.map ascii) = .ok [102] := by
  decide +kernel

end Deka.Jwt
