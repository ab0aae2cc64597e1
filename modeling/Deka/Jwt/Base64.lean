/-
Deka/Jwt/Base64.lean

Base64 as `bytes.rs` writes and reads it, and its unpadded URL alphabet.

A `String` of ASCII characters is the list of its bytes here.
-/
import Mathlib.Data.List.DropRight
import Mathlib.Data.UInt

namespace Deka.Jwt

abbrev Bytes := List UInt8

/-- The code of an ASCII character. -/
def ascii (c : Char) : UInt8 := c.toNat.toUInt8

/-- `BASE64` -/
def alphabet : Bytes :=
  "ABCDEFGHIJKLMNOPQRSTUVWXYZabcdefghijklmnopqrstuvwxyz0123456789+/".toList.map ascii

/-! ### Writing -/

/-- Three bytes as one number; a missing byte counts as 0. -/
def group (a b c : UInt8) : Nat := (a.toNat <<< 16) ||| (b.toNat <<< 8) ||| c.toNat

/-- The character of six bits of a group. -/
def digit (n shift : Nat) : UInt8 := alphabet[(n >>> shift) &&& 63]!

def toBase64 : Bytes → Bytes
  | [] => []
  | [a] =>
      let n := group a 0 0
      [digit n 18, digit n 12, ascii '=', ascii '=']
  | [a, b] =>
      let n := group a b 0
      [digit n 18, digit n 12, digit n 6, ascii '=']
  | a :: b :: c :: rest =>
      let n := group a b c
      digit n 18 :: digit n 12 :: digit n 6 :: digit n 0 :: toBase64 rest

/-! ### Reading -/

/-- The six bits of a character; a padding character counts as 0. -/
def sextet (pad j : Nat) (byte : UInt8) : Option Nat :=
  if j ≥ 4 - pad then some 0 else alphabet.idxOf? byte

/-- Four sextets as one number. -/
def word (n₁ n₂ n₃ n₄ : Nat) : Nat := ((n₁ <<< 6 ||| n₂) <<< 6 ||| n₃) <<< 6 ||| n₄

/-- The bytes of a word but for its padding. -/
def wordBytes (pad n : Nat) : Bytes :=
  (n >>> 16).toUInt8 :: ((if pad < 2 then [(n >>> 8).toUInt8] else []) ++
    if pad = 0 then [n.toUInt8] else [])

/-- The padding characters at the end of a chunk. -/
def padOf (y z : UInt8) : Nat :=
  if y = ascii '=' ∧ z = ascii '=' then 2 else if z = ascii '=' then 1 else 0

/-- The chunks of four characters; the source returns before a shorter chunk. -/
def fromChunks : Bytes → Option Bytes
  | w :: x :: y :: z :: rest => do
      let pad := padOf y z
      if pad ≠ 0 ∧ rest ≠ [] then none
      else
        let n₁ ← sextet pad 0 w
        let n₂ ← sextet pad 1 x
        let n₃ ← sextet pad 2 y
        let n₄ ← sextet pad 3 z
        let tail ← fromChunks rest
        return wordBytes pad (word n₁ n₂ n₃ n₄) ++ tail
  | _ => some []

def fromBase64 (text : Bytes) : Option Bytes :=
  if text.length % 4 ≠ 0 then none else fromChunks text

/-! ### The URL alphabet -/

def toUrl (c : UInt8) : UInt8 :=
  if c = ascii '+' then ascii '-' else if c = ascii '/' then ascii '_' else c

def ofUrl (c : UInt8) : UInt8 :=
  if c = ascii '-' then ascii '+' else if c = ascii '_' then ascii '/' else c

def b64url (data : Bytes) : Bytes :=
  ((toBase64 data).rdropWhile (· = ascii '=')).map toUrl

def isAlphanumeric (c : UInt8) : Bool :=
  (ascii '0' ≤ c && c ≤ ascii '9') || (ascii 'A' ≤ c && c ≤ ascii 'Z') ||
    (ascii 'a' ≤ c && c ≤ ascii 'z')

def validB64url (value : Bytes) : Bool :=
  !value.isEmpty && value.length % 4 != 1 &&
    value.all fun b => isAlphanumeric b || b == ascii '-' || b == ascii '_'

/-- `while !padded.len().is_multiple_of(4) { padded.push('=') }` -/
def pad (padded : Bytes) : Bytes :=
  if padded.length % 4 = 0 then padded else pad (padded ++ [ascii '='])
termination_by (4 - padded.length % 4) % 4
decreasing_by
  rw [List.length_append, List.length_singleton]
  omega

def decode (value : Bytes) : Except String Bytes :=
  match fromBase64 (pad (value.map ofUrl)) with
  | some data => .ok data
  | none => .error "invalid base64url"

/-! ### Groups of bits -/

theorem shiftLeft_or {a b i : Nat} (h : b < 2 ^ i) : a <<< i ||| b = a * 2 ^ i + b := by
  rw [Nat.shiftLeft_eq, Nat.mul_comm, Nat.two_pow_add_eq_or_of_lt h]

theorem group_eq (a b c : UInt8) :
    group a b c = a.toNat * 65536 + b.toNat * 256 + c.toNat := by
  have hb := b.toNat_lt
  have hc := c.toNat_lt
  have hlow : (b.toNat <<< 8) ||| c.toNat = b.toNat * 256 + c.toNat := shiftLeft_or hc
  rw [group, Nat.or_assoc, hlow, shiftLeft_or (by omega)]
  omega

theorem group_lt (a b c : UInt8) : group a b c < 2 ^ 24 := by
  have ha := a.toNat_lt
  have hb := b.toNat_lt
  have hc := c.toNat_lt
  rw [group_eq]
  omega

/-- The six bits that a digit stands for. -/
def bits (n shift : Nat) : Nat := (n >>> shift) &&& 63

theorem bits_eq (n shift : Nat) : bits n shift = n / 2 ^ shift % 64 := by
  rw [bits, Nat.shiftRight_eq_div_pow]
  exact Nat.and_two_pow_sub_one_eq_mod _ 6

theorem bits_lt (n shift : Nat) : bits n shift < 64 := by
  rw [bits_eq]
  exact Nat.mod_lt _ (by decide)

theorem idxOf_alphabet : ∀ i < 64, alphabet.idxOf? alphabet[i]! = some i := by
  decide

theorem alphabet_plain : ∀ c ∈ alphabet, c ≠ ascii '=' ∧ ofUrl (toUrl c) = c ∧
    toUrl c ≠ ascii '.' ∧ (isAlphanumeric (toUrl c) ∨
      toUrl c = ascii '-' ∨ toUrl c = ascii '_') := by
  decide +kernel

theorem digit_mem (n shift : Nat) : digit n shift ∈ alphabet := by
  have hlt : bits n shift < alphabet.length := bits_lt n shift
  have hget : digit n shift = alphabet.get ⟨bits n shift, hlt⟩ := getElem!_pos alphabet _ hlt
  rw [hget]
  exact List.get_mem _ _

theorem idxOf_digit (n shift : Nat) : alphabet.idxOf? (digit n shift) = some (bits n shift) :=
  idxOf_alphabet _ (bits_lt n shift)

theorem digit_ne_pad (n shift : Nat) : digit n shift ≠ ascii '=' :=
  (alphabet_plain _ (digit_mem n shift)).1

/-- Four digits hold the whole group. -/
theorem word_bits {n : Nat} (h : n < 2 ^ 24) :
    word (bits n 18) (bits n 12) (bits n 6) (bits n 0) = n := by
  have hor : ∀ a s, a <<< 6 ||| bits n s = a * 64 + bits n s := fun a s =>
    shiftLeft_or (bits_lt n s)
  rw [word, hor, hor, hor]
  simp only [bits_eq]
  omega

theorem toUInt8_eq {n : Nat} {a : UInt8} (h : n % 256 = a.toNat) : n.toUInt8 = a := by
  apply UInt8.toNat_inj.mp
  rw [Nat.toUInt8_eq, UInt8.toNat_ofNat', h]

theorem group_first (a b c : UInt8) : (group a b c >>> 16).toUInt8 = a := by
  have ha := a.toNat_lt
  have hb := b.toNat_lt
  have hc := c.toNat_lt
  apply toUInt8_eq
  rw [Nat.shiftRight_eq_div_pow, group_eq]
  omega

theorem group_second (a b c : UInt8) : (group a b c >>> 8).toUInt8 = b := by
  have hb := b.toNat_lt
  have hc := c.toNat_lt
  apply toUInt8_eq
  rw [Nat.shiftRight_eq_div_pow, group_eq]
  omega

theorem group_third (a b c : UInt8) : (group a b c).toUInt8 = c := by
  have hc := c.toNat_lt
  apply toUInt8_eq
  rw [group_eq]
  omega

/-! ### Reading what was written -/

theorem length_toBase64 (data : Bytes) : (toBase64 data).length = 4 * ((data.length + 2) / 3) := by
  induction data using toBase64.induct with
  | case1 => rfl
  | case2 a => simp [toBase64]
  | case3 a b => simp [toBase64]
  | case4 a b c rest ih =>
      rw [toBase64]
      simp only [List.length_cons, ih]
      omega

theorem sextet_digit {pad j : Nat} (h : j < 4 - pad) (n shift : Nat) :
    sextet pad j (digit n shift) = some (bits n shift) := by
  rw [sextet, if_neg (by omega), idxOf_digit]

theorem sextet_pad {pad j : Nat} (h : 4 - pad ≤ j) (byte : UInt8) : sextet pad j byte = some 0 :=
  if_pos h

theorem wordBytes_group (a b c : UInt8) :
    wordBytes 0 (group a b c) = [a, b, c] ∧ wordBytes 1 (group a b c) = [a, b] ∧
      wordBytes 2 (group a b c) = [a] := by
  simp only [wordBytes, group_first, group_second, group_third]
  exact ⟨rfl, rfl, rfl⟩

/-- A group without its last byte has no bits in its last digit. -/
theorem bits_group_two (a b : UInt8) : bits (group a b 0) 0 = 0 := by
  rw [bits_eq, group_eq, UInt8.toNat_zero]
  omega

theorem bits_group_one (a : UInt8) : bits (group a 0 0) 6 = 0 := by
  rw [bits_eq, group_eq, UInt8.toNat_zero]
  omega

theorem padOf_digit (n shift : Nat) (y : UInt8) : padOf y (digit n shift) = 0 := by
  rw [padOf, if_neg (fun h => digit_ne_pad n shift h.2), if_neg (digit_ne_pad n shift)]

theorem fromChunks_toBase64 (data : Bytes) : fromChunks (toBase64 data) = some data := by
  induction data using toBase64.induct with
  | case1 => rfl
  | case2 a =>
      have hword := word_bits (group_lt a 0 0)
      rw [bits_group_one, bits_group_two] at hword
      have hpad : padOf (ascii '=') (ascii '=') = 2 := rfl
      rw [toBase64, fromChunks, hpad, if_neg (by simp), sextet_digit (by decide),
        sextet_digit (by decide), sextet_pad (by decide), sextet_pad (by decide), fromChunks]
      simp only [Option.bind_eq_bind, Option.bind_some, hword, (wordBytes_group a 0 0).2.2]
      rfl
      nofun
  | case3 a b =>
      have hword := word_bits (group_lt a b 0)
      rw [bits_group_two] at hword
      have hpad : padOf (digit (group a b 0) 6) (ascii '=') = 1 := by
        rw [padOf, if_neg (fun h => digit_ne_pad _ _ h.1), if_pos rfl]
      rw [toBase64, fromChunks, hpad, if_neg (by simp), sextet_digit (by decide),
        sextet_digit (by decide), sextet_digit (by decide), sextet_pad (by decide), fromChunks]
      simp only [Option.bind_eq_bind, Option.bind_some, hword, (wordBytes_group a b 0).2.1]
      rfl
      nofun
  | case4 a b c rest ih =>
      have hword := word_bits (group_lt a b c)
      rw [toBase64, fromChunks, padOf_digit, if_neg (by simp), sextet_digit (by decide),
        sextet_digit (by decide), sextet_digit (by decide), sextet_digit (by decide), ih]
      simp only [Option.bind_eq_bind, Option.bind_some, hword, (wordBytes_group a b c).1]
      rfl

theorem fromBase64_toBase64 (data : Bytes) : fromBase64 (toBase64 data) = some data := by
  rw [fromBase64, if_neg (by rw [length_toBase64]; omega), fromChunks_toBase64]

/-! ### Padding -/

/-- How many padding characters the text of `n` bytes has. -/
def padding (n : Nat) : Nat := (3 - n % 3) % 3

theorem exists_core (data : Bytes) : ∃ core,
    toBase64 data = core ++ List.replicate (padding data.length) (ascii '=') ∧
      ∀ c ∈ core, c ∈ alphabet := by
  induction data using toBase64.induct with
  | case1 => exact ⟨[], rfl, nofun⟩
  | case2 a =>
      refine ⟨[digit (group a 0 0) 18, digit (group a 0 0) 12], by simp [toBase64, padding], ?_⟩
      simp [digit_mem]
  | case3 a b =>
      refine ⟨[digit (group a b 0) 18, digit (group a b 0) 12, digit (group a b 0) 6],
        by simp [toBase64, padding], ?_⟩
      simp [digit_mem]
  | case4 a b c rest ih =>
      obtain ⟨core, hcore, hmem⟩ := ih
      have hlength : padding (a :: b :: c :: rest).length = padding rest.length := by
        simp only [padding, List.length_cons]
        omega
      refine ⟨digit (group a b c) 18 :: digit (group a b c) 12 :: digit (group a b c) 6 ::
        digit (group a b c) 0 :: core, ?_, ?_⟩
      · rw [toBase64, hlength, hcore]
        rfl
      · intro x hx
        simp only [List.mem_cons] at hx
        rcases hx with rfl | rfl | rfl | rfl | hx
        · exact digit_mem _ _
        · exact digit_mem _ _
        · exact digit_mem _ _
        · exact digit_mem _ _
        · exact hmem x hx

theorem pad_append {k : Nat} (hk : k < 4) {core : Bytes} (h : (core.length + k) % 4 = 0) :
    pad core = core ++ List.replicate k (ascii '=') := by
  induction k generalizing core with
  | zero =>
      have h : core.length % 4 = 0 := h
      rw [pad, if_pos h]
      exact (List.append_nil core).symm
  | succ k ih =>
      rw [pad, if_neg (by omega), ih (by omega), List.replicate_succ, List.append_assoc]
      · rfl
      · rw [List.length_append, List.length_singleton]
        omega

/-- What is at the end of a list is dropped before the rest is looked at. -/
theorem rdropWhile_append {p : UInt8 → Bool} (l : Bytes) {tail : Bytes}
    (h : ∀ c ∈ tail, p c) : (l ++ tail).rdropWhile p = l.rdropWhile p := by
  rw [List.rdropWhile, List.rdropWhile, List.reverse_append,
    List.dropWhile_append_of_pos fun c hc => h c (List.mem_reverse.mp hc)]

/-- The unpadded text in the URL alphabet. -/
theorem b64url_core (data : Bytes) : ∃ core, b64url data = core.map toUrl ∧
    toBase64 data = core ++ List.replicate (padding data.length) (ascii '=') ∧
      ∀ c ∈ core, c ∈ alphabet := by
  obtain ⟨core, hcore, hmem⟩ := exists_core data
  refine ⟨core, ?_, hcore, hmem⟩
  rw [b64url, hcore, rdropWhile_append core (by simp), List.rdropWhile_eq_self_iff.mpr]
  intro hne hlast
  have hpad := of_decide_eq_true hlast
  exact (alphabet_plain _ (hmem _ (List.getLast_mem hne))).1 hpad

theorem length_b64url (data : Bytes) :
    (b64url data).length + padding data.length = 4 * ((data.length + 2) / 3) := by
  obtain ⟨core, hurl, hcore, -⟩ := b64url_core data
  have hlength := congrArg List.length hcore
  rw [length_toBase64, List.length_append, List.length_replicate] at hlength
  rw [hurl, List.length_map, hlength]

/-- The padding that `b64url` leaves out. -/
theorem pad_b64url (data : Bytes) : pad ((b64url data).map ofUrl) = toBase64 data := by
  obtain ⟨core, hurl, hcore, hmem⟩ := b64url_core data
  have hback : (core.map toUrl).map ofUrl = core := by
    rw [List.map_map]
    refine (List.map_congr_left fun c hc => ?_).trans (List.map_id core)
    exact (alphabet_plain c (hmem c hc)).2.1
  have hlength := length_b64url data
  rw [hurl, List.length_map] at hlength
  rw [hurl, hback, hcore]
  refine pad_append ?_ ?_
  · unfold padding
    omega
  · omega

/-- **What was written in the URL alphabet is read back.** -/
theorem decode_b64url (data : Bytes) : decode (b64url data) = .ok data := by
  rw [decode, pad_b64url, fromBase64_toBase64]

/-- A text in the URL alphabet has no dot, and `verify` accepts it as a part of a token. -/
theorem validB64url_b64url {data : Bytes} (h : data ≠ []) : validB64url (b64url data) := by
  have hlength := length_b64url data
  have hpos : 0 < data.length := List.length_pos_iff.mpr h
  unfold padding at hlength
  have hne : b64url data ≠ [] := by
    rintro he
    rw [he, List.length_nil] at hlength
    omega
  have hmod : (b64url data).length % 4 ≠ 1 := by omega
  obtain ⟨core, hurl, -, hmem⟩ := b64url_core data
  have hall : (b64url data).all fun b =>
      isAlphanumeric b || b == ascii '-' || b == ascii '_' := by
    rw [hurl, List.all_map, List.all_eq_true]
    intro c hc
    have hurl := (alphabet_plain c (hmem c hc)).2.2.2
    simpa [or_assoc] using hurl
  simp [validB64url, hne, hmod, hall]

theorem dot_notMem_b64url (data : Bytes) : ascii '.' ∉ b64url data := by
  obtain ⟨core, hurl, -, hmem⟩ := b64url_core data
  intro h
  rw [hurl] at h
  obtain ⟨c, hc, he⟩ := List.mem_map.mp h
  exact (alphabet_plain c (hmem c hc)).2.2.1 he

end Deka.Jwt
