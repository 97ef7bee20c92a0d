import Mathlib
import CallReach.Text.Utf8

/-!
# Decoding reverses encoding

`encode` is the encoding of a text, character by character.  The decoder accepts
exactly the encodings of texts, so a sequence of bytes that it refuses is the
encoding of none.

* `lead?_eq_some_iff` sorts the lead bytes by the number of bytes that follow, and
  `continuation_succ_eq_ok_iff` reads one of these.
* `eq_encodeChar_of_continuation`: a lead byte and its followers are the encoding
  of what they decode to, from `encodeChar_two` to `encodeChar_four`.
* `decodeFrom_encodeChar` decodes one character in front of other bytes, from
  `decodeFrom_two` to `decodeFrom_four`.

`decode_eq_ok_iff` is the result.
-/

namespace CallReach.Text.Utf8

open String (utf8EncodeChar)

/-- The bytes of a text. -/
def encode (chars : List Char) : List UInt8 :=
  chars.flatMap utf8EncodeChar

/-! ## Lead bytes and continuation bytes -/

/-- The lead bytes by the number of bytes that follow.  The first of these bytes
is bounded where it would make an overlong form, a surrogate or a value that is
too great. -/
theorem lead?_eq_some_iff {byte : Nat} {lead : Lead} :
    lead? byte = some lead ↔
      (0xC2 ≤ byte ∧ byte ≤ 0xDF) ∧ lead = ⟨1, byte - 0xC0, 0x80, 0xBF⟩ ∨
      (0xE0 ≤ byte ∧ byte ≤ 0xEF) ∧ lead = ⟨2, byte - 0xE0, if byte = 0xE0 then 0xA0 else 0x80,
        if byte = 0xED then 0x9F else 0xBF⟩ ∨
      (0xF0 ≤ byte ∧ byte ≤ 0xF4) ∧ lead = ⟨3, byte - 0xF0, if byte = 0xF0 then 0x90 else 0x80,
        if byte = 0xF4 then 0x8F else 0xBF⟩ := by
  unfold lead?
  simp only [Bool.and_eq_true, decide_eq_true_eq]
  split_ifs <;> grind

theorem continuation_zero (value lowest highest fitted : Nat) (bytes : List UInt8) :
    continuation 0 value lowest highest fitted bytes = .ok (value, bytes) := by
  cases bytes <;> simp [continuation]

theorem continuation_succ_eq_ok_iff {count value lowest highest fitted result : Nat}
    {bytes after : List UInt8} :
    continuation (count + 1) value lowest highest fitted bytes = .ok (result, after) ↔
      ∃ byte rest, bytes = byte :: rest ∧ lowest ≤ byte.toNat ∧ byte.toNat ≤ highest ∧
        continuation count (64 * value + (byte.toNat - 0x80)) 0x80 0xBF (fitted + 1) rest =
          .ok (result, after) := by
  cases bytes with
  | nil => simp [continuation]
  | cons byte rest =>
    rw [continuation, if_neg (by omega)]
    by_cases hfits : lowest ≤ byte.toNat ∧ byte.toNat ≤ highest
    · simp [hfits]
    · rw [if_neg (by simpa using hfits)]
      simp only [reduceCtorEq, List.cons.injEq, false_iff, not_exists, not_and]
      rintro _ _ ⟨rfl, rfl⟩ hlow hhigh
      exact absurd ⟨hlow, hhigh⟩ hfits

/-- A lead byte and its followers in front of other bytes. -/
theorem decodeFrom_cons_of_lead {byte : UInt8} {rest after : List UInt8} {lead : Lead}
    {value : Nat} (position : Nat) (hlead : lead? byte.toNat = some lead)
    (hfollow : continuation lead.count lead.bits lead.lowest lead.highest 0 rest =
      .ok (value, after)) :
    decodeFrom position (byte :: rest) =
      (Char.ofNat value :: ·) <$> decodeFrom (position + 1 + lead.count) after := by
  have hhigh : ¬byte.toNat < 0x80 := by
    have hbounds := lead?_eq_some_iff.1 hlead
    omega
  rw [decodeFrom, if_neg hhigh]
  simp only [hlead]
  split
  · next hfault => simp [hfollow] at hfault
  · next found left hfound =>
    rw [hfollow, Except.ok.injEq, Prod.mk.injEq] at hfound
    obtain ⟨rfl, rfl⟩ := hfound
    rfl

/-! ## Encoding what was decoded -/

theorem ofNat_of_eq_toNat {n : Nat} (byte : UInt8) (h : n = byte.toNat) :
    UInt8.ofNat n = byte := by
  rw [h, UInt8.ofNat_toNat]

theorem val_toNat_ofNat {n : Nat} (h : n < 0xD800 ∨ 0xDFFF < n ∧ n < 0x110000) :
    (Char.ofNat n).val.toNat = n := by
  have hvalid : n.isValidChar := h
  rw [Char.toNat_val, Char.toNat_ofNat, if_pos hvalid]

theorem encodeChar_one {a : UInt8} (ha : a.toNat < 0x80) :
    utf8EncodeChar (Char.ofNat a.toNat) = [a] := by
  rw [utf8EncodeChar, val_toNat_ofNat (by omega), if_pos (by omega), UInt8.ofNat_toNat]

theorem encodeChar_two {a b : UInt8} (ha : 0xC2 ≤ a.toNat ∧ a.toNat ≤ 0xDF)
    (hb : 0x80 ≤ b.toNat ∧ b.toNat ≤ 0xBF) :
    utf8EncodeChar (Char.ofNat (64 * (a.toNat - 0xC0) + (b.toNat - 0x80))) = [a, b] := by
  rw [utf8EncodeChar, val_toNat_ofNat (by omega), if_neg (by omega), if_pos (by omega)]
  rw [ofNat_of_eq_toNat a (by omega), ofNat_of_eq_toNat b (by omega)]

theorem encodeChar_three {a b d : UInt8} (ha : 0xE0 ≤ a.toNat ∧ a.toNat ≤ 0xEF)
    (hb : 0x80 ≤ b.toNat ∧ b.toNat ≤ 0xBF) (hlow : a.toNat = 0xE0 → 0xA0 ≤ b.toNat)
    (hhigh : a.toNat = 0xED → b.toNat ≤ 0x9F) (hd : 0x80 ≤ d.toNat ∧ d.toNat ≤ 0xBF) :
    utf8EncodeChar (Char.ofNat
      (64 * (64 * (a.toNat - 0xE0) + (b.toNat - 0x80)) + (d.toNat - 0x80))) = [a, b, d] := by
  rw [utf8EncodeChar, val_toNat_ofNat (by omega), if_neg (by omega), if_neg (by omega),
    if_pos (by omega)]
  rw [ofNat_of_eq_toNat a (by omega), ofNat_of_eq_toNat b (by omega),
    ofNat_of_eq_toNat d (by omega)]

theorem encodeChar_four {a b d e : UInt8} (ha : 0xF0 ≤ a.toNat ∧ a.toNat ≤ 0xF4)
    (hb : 0x80 ≤ b.toNat ∧ b.toNat ≤ 0xBF) (hlow : a.toNat = 0xF0 → 0x90 ≤ b.toNat)
    (hhigh : a.toNat = 0xF4 → b.toNat ≤ 0x8F) (hd : 0x80 ≤ d.toNat ∧ d.toNat ≤ 0xBF)
    (he : 0x80 ≤ e.toNat ∧ e.toNat ≤ 0xBF) :
    utf8EncodeChar (Char.ofNat
      (64 * (64 * (64 * (a.toNat - 0xF0) + (b.toNat - 0x80)) + (d.toNat - 0x80)) +
        (e.toNat - 0x80))) = [a, b, d, e] := by
  rw [utf8EncodeChar, val_toNat_ofNat (by omega), if_neg (by omega), if_neg (by omega),
    if_neg (by omega)]
  rw [ofNat_of_eq_toNat a (by omega), ofNat_of_eq_toNat b (by omega),
    ofNat_of_eq_toNat d (by omega), ofNat_of_eq_toNat e (by omega)]

/-- A lead byte and its followers are the encoding of the character that they
decode to. -/
theorem eq_encodeChar_of_continuation {byte : UInt8} {rest after : List UInt8} {lead : Lead}
    {value : Nat} (hlead : lead? byte.toNat = some lead)
    (hfollow : continuation lead.count lead.bits lead.lowest lead.highest 0 rest =
      .ok (value, after)) :
    byte :: rest = utf8EncodeChar (Char.ofNat value) ++ after := by
  obtain ⟨htwo, rfl⟩ | ⟨hthree, rfl⟩ | ⟨hfour, rfl⟩ := lead?_eq_some_iff.1 hlead <;>
    simp only [continuation_succ_eq_ok_iff, continuation_zero, Except.ok.injEq,
      Prod.mk.injEq] at hfollow
  · obtain ⟨b, rest, rfl, hlow, hhigh, rfl, rfl⟩ := hfollow
    rw [encodeChar_two htwo ⟨hlow, hhigh⟩]
    rfl
  · obtain ⟨b, rest, rfl, hlow, hhigh, d, rest, rfl, hd, hd', rfl, rfl⟩ := hfollow
    split_ifs at hlow hhigh <;>
      rw [encodeChar_three hthree (by omega) (by omega) (by omega) ⟨hd, hd'⟩] <;> rfl
  · obtain ⟨b, rest, rfl, hlow, hhigh, d, rest, rfl, hd, hd', e, rest, rfl, he, he', rfl, rfl⟩ :=
      hfollow
    split_ifs at hlow hhigh <;>
      rw [encodeChar_four hfour (by omega) (by omega) (by omega) ⟨hd, hd'⟩ ⟨he, he'⟩] <;> rfl

/-- Bytes that are decoded are the encoding of the text that they decode to. -/
theorem eq_encode_of_decodeFrom {position : Nat} {bytes : List UInt8} {chars : List Char}
    (h : decodeFrom position bytes = .ok chars) : bytes = encode chars := by
  fun_induction decodeFrom position bytes generalizing chars with
  | case1 =>
    cases h
    rfl
  | case2 position byte rest hlow ih =>
    cases hrest : decodeFrom (position + 1) rest with
    | error fault =>
      rw [hrest] at h
      cases h
    | ok decoded =>
      rw [hrest] at h
      cases h
      rw [encode, List.flatMap_cons, encodeChar_one hlow, ← encode, ← ih hrest]
      rfl
  | case3 => cases h
  | case4 => cases h
  | case5 position byte rest hhigh lead hlead value after hfollow ih =>
    cases hrest : decodeFrom (position + 1 + lead.count) after with
    | error fault =>
      rw [hrest] at h
      cases h
    | ok decoded =>
      rw [hrest] at h
      cases h
      rw [encode, List.flatMap_cons, ← encode, ← ih hrest]
      exact eq_encodeChar_of_continuation hlead hfollow

/-! ## Decoding what was encoded -/

theorem decodeFrom_two {a b : UInt8} (position : Nat) (rest : List UInt8)
    (ha : 0xC2 ≤ a.toNat ∧ a.toNat ≤ 0xDF) (hb : 0x80 ≤ b.toNat ∧ b.toNat ≤ 0xBF) :
    decodeFrom position (a :: b :: rest) =
      (Char.ofNat (64 * (a.toNat - 0xC0) + (b.toNat - 0x80)) :: ·) <$>
        decodeFrom (position + 1 + 1) rest := by
  refine decodeFrom_cons_of_lead position (lead?_eq_some_iff.2 (.inl ⟨ha, rfl⟩)) ?_
  exact continuation_succ_eq_ok_iff.2 ⟨b, _, rfl, hb.1, hb.2, continuation_zero ..⟩

theorem decodeFrom_three {a b d : UInt8} (position : Nat) (rest : List UInt8)
    (ha : 0xE0 ≤ a.toNat ∧ a.toNat ≤ 0xEF) (hb : 0x80 ≤ b.toNat ∧ b.toNat ≤ 0xBF)
    (hlow : a.toNat = 0xE0 → 0xA0 ≤ b.toNat) (hhigh : a.toNat = 0xED → b.toNat ≤ 0x9F)
    (hd : 0x80 ≤ d.toNat ∧ d.toNat ≤ 0xBF) :
    decodeFrom position (a :: b :: d :: rest) =
      (Char.ofNat (64 * (64 * (a.toNat - 0xE0) + (b.toNat - 0x80)) + (d.toNat - 0x80)) :: ·) <$>
        decodeFrom (position + 1 + 2) rest := by
  refine decodeFrom_cons_of_lead position (lead?_eq_some_iff.2 (.inr (.inl ⟨ha, rfl⟩))) ?_
  refine continuation_succ_eq_ok_iff.2 ⟨b, _, rfl, ?_, ?_, ?_⟩
  · dsimp only
    split_ifs <;> omega
  · dsimp only
    split_ifs <;> omega
  · exact continuation_succ_eq_ok_iff.2 ⟨d, _, rfl, hd.1, hd.2, continuation_zero ..⟩

theorem decodeFrom_four {a b d e : UInt8} (position : Nat) (rest : List UInt8)
    (ha : 0xF0 ≤ a.toNat ∧ a.toNat ≤ 0xF4) (hb : 0x80 ≤ b.toNat ∧ b.toNat ≤ 0xBF)
    (hlow : a.toNat = 0xF0 → 0x90 ≤ b.toNat) (hhigh : a.toNat = 0xF4 → b.toNat ≤ 0x8F)
    (hd : 0x80 ≤ d.toNat ∧ d.toNat ≤ 0xBF) (he : 0x80 ≤ e.toNat ∧ e.toNat ≤ 0xBF) :
    decodeFrom position (a :: b :: d :: e :: rest) =
      (Char.ofNat (64 * (64 * (64 * (a.toNat - 0xF0) + (b.toNat - 0x80)) + (d.toNat - 0x80)) +
          (e.toNat - 0x80)) :: ·) <$> decodeFrom (position + 1 + 3) rest := by
  refine decodeFrom_cons_of_lead position (lead?_eq_some_iff.2 (.inr (.inr ⟨ha, rfl⟩))) ?_
  refine continuation_succ_eq_ok_iff.2 ⟨b, _, rfl, ?_, ?_, ?_⟩
  · dsimp only
    split_ifs <;> omega
  · dsimp only
    split_ifs <;> omega
  · refine continuation_succ_eq_ok_iff.2 ⟨d, _, rfl, hd.1, hd.2, ?_⟩
    exact continuation_succ_eq_ok_iff.2 ⟨e, _, rfl, he.1, he.2, continuation_zero ..⟩

/-- A character in front of other bytes is the first that they decode to. -/
theorem decodeFrom_encodeChar (c : Char) (position : Nat) (rest : List UInt8) :
    ∃ next, decodeFrom position (utf8EncodeChar c ++ rest) =
      (c :: ·) <$> decodeFrom next rest := by
  have hvalid : c.val.toNat < 0xD800 ∨ 0xDFFF < c.val.toNat ∧ c.val.toNat < 0x110000 := c.valid
  have hchar : Char.ofNat c.val.toNat = c := Char.ofNat_toNat c
  have hsize : UInt8.size = 256 := rfl
  rw [utf8EncodeChar]
  generalize c.val.toNat = v at hvalid hchar
  -- The bytes of each length are named by their values, which is all that `omega` needs.
  split_ifs with hone htwo hthree
  · refine ⟨position + 1, ?_⟩
    rw [List.cons_append, decodeFrom, UInt8.toNat_ofNat_of_lt' (by omega), if_pos (by omega), hchar]
    rfl
  · have ha := UInt8.toNat_ofNat_of_lt' (n := v / 64 % 32 + 192) (by omega)
    have hb := UInt8.toNat_ofNat_of_lt' (n := v % 64 + 128) (by omega)
    generalize UInt8.ofNat (v / 64 % 32 + 192) = a at ha
    generalize UInt8.ofNat (v % 64 + 128) = b at hb
    have hvalue : 64 * (a.toNat - 0xC0) + (b.toNat - 0x80) = v := by omega
    rw [← hchar, ← hvalue]
    exact ⟨_, decodeFrom_two position rest (by omega) (by omega)⟩
  · have ha := UInt8.toNat_ofNat_of_lt' (n := v / 4096 % 16 + 224) (by omega)
    have hb := UInt8.toNat_ofNat_of_lt' (n := v / 64 % 64 + 128) (by omega)
    have hd := UInt8.toNat_ofNat_of_lt' (n := v % 64 + 128) (by omega)
    generalize UInt8.ofNat (v / 4096 % 16 + 224) = a at ha
    generalize UInt8.ofNat (v / 64 % 64 + 128) = b at hb
    generalize UInt8.ofNat (v % 64 + 128) = d at hd
    have hvalue : 64 * (64 * (a.toNat - 0xE0) + (b.toNat - 0x80)) + (d.toNat - 0x80) = v := by
      omega
    rw [← hchar, ← hvalue]
    exact ⟨_, decodeFrom_three position rest (by omega) (by omega) (by omega) (by omega) (by omega)⟩
  · have ha := UInt8.toNat_ofNat_of_lt' (n := v / 262144 % 8 + 240) (by omega)
    have hb := UInt8.toNat_ofNat_of_lt' (n := v / 4096 % 64 + 128) (by omega)
    have hd := UInt8.toNat_ofNat_of_lt' (n := v / 64 % 64 + 128) (by omega)
    have he := UInt8.toNat_ofNat_of_lt' (n := v % 64 + 128) (by omega)
    generalize UInt8.ofNat (v / 262144 % 8 + 240) = a at ha
    generalize UInt8.ofNat (v / 4096 % 64 + 128) = b at hb
    generalize UInt8.ofNat (v / 64 % 64 + 128) = d at hd
    generalize UInt8.ofNat (v % 64 + 128) = e at he
    have hvalue : 64 * (64 * (64 * (a.toNat - 0xF0) + (b.toNat - 0x80)) + (d.toNat - 0x80)) +
        (e.toNat - 0x80) = v := by
      omega
    rw [← hchar, ← hvalue]
    exact ⟨_, decodeFrom_four position rest (by omega) (by omega) (by omega) (by omega) (by omega)
      (by omega)⟩

theorem decodeFrom_encode (chars : List Char) (position : Nat) :
    decodeFrom position (encode chars) = .ok chars := by
  induction chars generalizing position with
  | nil => rw [encode, List.flatMap_nil, decodeFrom]
  | cons c chars ih =>
    obtain ⟨next, hnext⟩ := decodeFrom_encodeChar c position (encode chars)
    rw [encode, List.flatMap_cons, ← encode, hnext, ih]
    rfl

/-- The decoder accepts the encodings of texts and nothing else. -/
theorem decode_eq_ok_iff {bytes : List UInt8} {chars : List Char} :
    decode bytes = .ok chars ↔ bytes = encode chars := by
  refine ⟨eq_encode_of_decodeFrom, fun h => ?_⟩
  rw [h]
  exact decodeFrom_encode chars 0

theorem encode_inj {chars others : List Char} (h : encode chars = encode others) :
    chars = others := by
  have hdecode := decode_eq_ok_iff.2 h
  rw [decode_eq_ok_iff.2 rfl] at hdecode
  exact Except.ok.inj hdecode

end CallReach.Text.Utf8
