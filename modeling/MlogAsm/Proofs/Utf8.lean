import Mathlib.Data.List.Basic
import MlogAsm.Text.Utf8

/-!
# Decoding and encoding

The decoder takes exactly the bytes that some text is encoded to, and gives that text. A character
that has begun is followed until it is complete, and the bytes up to there are compared with those
of the character: two, three or four of them.
-/

namespace MlogAsm

theorem exists_of_map_eq_ok {ε α β : Type} {x : Except ε α} {f : α → β} {b : β}
    (h : x.map f = .ok b) : ∃ a, x = .ok a ∧ f a = b := by
  cases x with
  | error e => cases h
  | ok a => exact ⟨a, rfl, Except.ok.inj h⟩

namespace Text.Utf8

private theorem toList_loop (bytes : ByteArray) (i : Nat) (taken : List UInt8) :
    ByteArray.toList.loop bytes i taken = taken.reverse ++ bytes.data.toList.drop i := by
  fun_induction ByteArray.toList.loop bytes i taken with
  | case1 i taken h ih =>
    have hi : i < bytes.data.toList.length := h
    have hget : bytes.get! i = bytes.data.toList[i] := by
      change bytes.data[i]! = _
      rw [getElem!_pos bytes.data i h, Array.getElem_toList]
    rw [ih, hget, List.reverse_cons, List.append_assoc, List.singleton_append,
      ← List.drop_eq_getElem_cons hi]
  | case2 i taken h =>
    have hi : bytes.data.toList.length ≤ i := Nat.le_of_not_lt h
    rw [List.drop_eq_nil_of_le hi, List.append_nil]

private theorem encode_ofList (cs : List Char) :
    encode (String.ofList cs) = cs.flatMap String.utf8EncodeChar := by
  unfold encode
  rw [String.toUTF8_eq_toByteArray, ByteArray.toList, toList_loop]
  exact List.toList_data_toByteArray

namespace Begun

/-- The bytes that make a character complete which has begun, and its code point. -/
inductive Continues : Begun → List UInt8 → Nat → Prop where
  | last {s : Begun} {b : UInt8} {v : Nat} (ho : s.owed = 1) (hb : s.low ≤ b ∧ b ≤ s.high)
      (hv : (s.push b).bits = v) : Continues s [b] v
  | more {s : Begun} {b : UInt8} {bytes : List UInt8} {v : Nat} (ho : 1 < s.owed)
      (hb : s.low ≤ b ∧ b ≤ s.high) (h : Continues (s.push b) bytes v) :
      Continues s (b :: bytes) v

variable {s : Begun} {bytes rest : List UInt8} {v pos : Nat} {cs : List Char}

/-- One more byte completes a character or leaves it begun. -/
private theorem decodeFrom_cons {b : UInt8} (hb : s.low ≤ b ∧ b ≤ s.high) :
    Utf8.decodeFrom pos (some s) (b :: rest) =
      if (s.push b).owed = 0 then
        (Utf8.decodeFrom (pos + 1) none rest).map (Char.ofNat (s.push b).bits :: ·)
      else Utf8.decodeFrom (pos + 1) (some (s.push b)) rest := by
  have hb' : (decide (s.low ≤ b) && decide (b ≤ s.high)) = true := by simpa using hb
  rw [Utf8.decodeFrom, if_pos hb']
  rfl

private theorem decodeFrom_of_continues (h : s.Continues bytes v) :
    Utf8.decodeFrom pos (some s) (bytes ++ rest) =
      (Utf8.decodeFrom (pos + bytes.length) none rest).map (Char.ofNat v :: ·) := by
  induction h generalizing pos with
  | @last s b v ho hb hv =>
    subst hv
    have howed : (s.push b).owed = 0 := by simp [push, ho]
    rw [List.singleton_append, decodeFrom_cons hb, if_pos howed]
    rfl
  | @more s b bytes v ho hb _ ih =>
    have howed : (s.push b).owed ≠ 0 := by simp only [push]; omega
    rw [List.cons_append, decodeFrom_cons hb, if_neg howed, ih, List.length_cons, Nat.add_assoc,
      Nat.add_comm 1]

/-- A character that has begun is complete when decoding succeeds. -/
private theorem exists_continues (ho : 0 < s.owed)
    (h : Utf8.decodeFrom pos (some s) bytes = .ok cs) :
    ∃ more rest v cs', bytes = more ++ rest ∧ s.Continues more v ∧
      Utf8.decodeFrom (pos + more.length) none rest = .ok cs' ∧ cs = Char.ofNat v :: cs' := by
  induction bytes generalizing s pos with
  | nil => cases h
  | cons b bytes ih =>
    by_cases hb : s.low ≤ b ∧ b ≤ s.high
    · rw [decodeFrom_cons hb] at h
      split at h
      · next howed =>
        obtain ⟨cs', hd, rfl⟩ := exists_of_map_eq_ok h
        refine ⟨[b], bytes, _, cs', rfl, .last ?_ hb rfl, hd, rfl⟩
        simp only [push] at howed
        omega
      · next howed =>
        obtain ⟨more, rest, v, cs', rfl, hc, hd, rfl⟩ := ih (Nat.pos_of_ne_zero howed) h
        refine ⟨b :: more, rest, v, cs', rfl, .more ?_ hb hc, ?_, rfl⟩
        · simp only [push] at howed
          omega
        · rw [List.length_cons, ← Nat.add_assoc, Nat.add_right_comm]
          exact hd
    · have hb' : ¬ (decide (s.low ≤ b) && decide (b ≤ s.high)) = true := by simpa using hb
      rw [Utf8.decodeFrom, if_neg hb'] at h
      cases h

end Begun

/-! The first byte tells how many follow. -/

private theorem begin?_two {b : UInt8} (h : 0xc2 ≤ b.toNat) (h' : b.toNat < 0xe0) :
    begin? b = some ⟨b, 1, b.toNat - 0xc0, 1, 0x80, 0xbf⟩ := by
  simp only [begin?, UInt8.lt_iff_toNat_lt, ← UInt8.toNat_inj, UInt8.reduceToNat]
  grind

private theorem begin?_three {b : UInt8} (h : 0xe0 ≤ b.toNat) (h' : b.toNat < 0xf0) :
    begin? b = some ⟨b, 1, b.toNat - 0xe0, 2, if b.toNat = 0xe0 then 0xa0 else 0x80,
      if b.toNat = 0xed then 0x9f else 0xbf⟩ := by
  simp only [begin?, UInt8.lt_iff_toNat_lt, ← UInt8.toNat_inj, UInt8.reduceToNat]
  grind

private theorem begin?_four {b : UInt8} (h : 0xf0 ≤ b.toNat) (h' : b.toNat < 0xf5) :
    begin? b = some ⟨b, 1, b.toNat - 0xf0, 3, if b.toNat = 0xf0 then 0x90 else 0x80,
      if b.toNat = 0xf4 then 0x8f else 0xbf⟩ := by
  simp only [begin?, UInt8.lt_iff_toNat_lt, ← UInt8.toNat_inj, UInt8.reduceToNat]
  grind

private theorem cases_of_begin? {b : UInt8} {s : Begun} (h : begin? b = some s) :
    (0xc2 ≤ b.toNat ∧ b.toNat < 0xe0) ∨ (0xe0 ≤ b.toNat ∧ b.toNat < 0xf0) ∨
      (0xf0 ≤ b.toNat ∧ b.toNat < 0xf5) := by
  simp only [begin?, UInt8.lt_iff_toNat_lt, ← UInt8.toNat_inj, UInt8.reduceToNat] at h
  grind

private theorem owed_pos_of_begin? {b : UInt8} {s : Begun} (h : begin? b = some s) :
    0 < s.owed := by
  rcases cases_of_begin? h with ⟨hb, hb'⟩ | ⟨hb, hb'⟩ | ⟨hb, hb'⟩
  · rw [begin?_two hb hb'] at h
    cases h
    exact Nat.succ_pos _
  · rw [begin?_three hb hb'] at h
    cases h
    exact Nat.succ_pos _
  · rw [begin?_four hb hb'] at h
    cases h
    exact Nat.succ_pos _

/-! The bytes of a character, by their number. -/

private theorem toNat_ofNat {v : Nat} (h : v.isValidChar) : (Char.ofNat v).val.toNat = v := by
  rw [Char.ofNat, dif_pos h]
  rfl

section Forms

variable {b b₁ b₂ b₃ : UInt8}

private theorem utf8EncodeChar_one (hb : b.toNat < 0x80) :
    String.utf8EncodeChar (.ofNat b.toNat) = [b] := by
  have hv : b.toNat.isValidChar := by
    left
    omega
  rw [String.utf8EncodeChar, toNat_ofNat hv, if_pos (by omega), UInt8.ofNat_toNat]

private theorem utf8EncodeChar_two (hb : 0xc2 ≤ b.toNat ∧ b.toNat < 0xe0)
    (h₁ : 0x80 ≤ b₁.toNat ∧ b₁.toNat ≤ 0xbf) :
    String.utf8EncodeChar (.ofNat ((b.toNat - 0xc0) * 64 + (b₁.toNat - 0x80))) = [b, b₁] := by
  have hv : ((b.toNat - 0xc0) * 64 + (b₁.toNat - 0x80)).isValidChar := by
    left
    omega
  rw [String.utf8EncodeChar, toNat_ofNat hv, if_neg (by omega), if_pos (by omega)]
  simp only [List.cons.injEq, ← UInt8.toNat_inj, UInt8.toNat_ofNat', and_true]
  omega

private theorem utf8EncodeChar_three (hb : 0xe0 ≤ b.toNat ∧ b.toNat < 0xf0)
    (h₁ : 0x80 ≤ b₁.toNat ∧ b₁.toNat ≤ 0xbf) (hlow : b.toNat = 0xe0 → 0xa0 ≤ b₁.toNat)
    (hhigh : b.toNat = 0xed → b₁.toNat ≤ 0x9f) (h₂ : 0x80 ≤ b₂.toNat ∧ b₂.toNat ≤ 0xbf) :
    String.utf8EncodeChar
        (.ofNat (((b.toNat - 0xe0) * 64 + (b₁.toNat - 0x80)) * 64 + (b₂.toNat - 0x80))) =
      [b, b₁, b₂] := by
  have hv : (((b.toNat - 0xe0) * 64 + (b₁.toNat - 0x80)) * 64 + (b₂.toNat - 0x80)).isValidChar := by
    unfold Nat.isValidChar
    omega
  rw [String.utf8EncodeChar, toNat_ofNat hv, if_neg (by omega), if_neg (by omega),
    if_pos (by omega)]
  simp only [List.cons.injEq, ← UInt8.toNat_inj, UInt8.toNat_ofNat', and_true]
  omega

private theorem utf8EncodeChar_four (hb : 0xf0 ≤ b.toNat ∧ b.toNat < 0xf5)
    (h₁ : 0x80 ≤ b₁.toNat ∧ b₁.toNat ≤ 0xbf) (hlow : b.toNat = 0xf0 → 0x90 ≤ b₁.toNat)
    (hhigh : b.toNat = 0xf4 → b₁.toNat ≤ 0x8f) (h₂ : 0x80 ≤ b₂.toNat ∧ b₂.toNat ≤ 0xbf)
    (h₃ : 0x80 ≤ b₃.toNat ∧ b₃.toNat ≤ 0xbf) :
    String.utf8EncodeChar
        (.ofNat ((((b.toNat - 0xf0) * 64 + (b₁.toNat - 0x80)) * 64 + (b₂.toNat - 0x80)) * 64 +
          (b₃.toNat - 0x80))) =
      [b, b₁, b₂, b₃] := by
  have hv : ((((b.toNat - 0xf0) * 64 + (b₁.toNat - 0x80)) * 64 + (b₂.toNat - 0x80)) * 64 +
      (b₃.toNat - 0x80)).isValidChar := by
    unfold Nat.isValidChar
    omega
  rw [String.utf8EncodeChar, toNat_ofNat hv, if_neg (by omega), if_neg (by omega),
    if_neg (by omega)]
  simp only [List.cons.injEq, ← UInt8.toNat_inj, UInt8.toNat_ofNat', and_true]
  omega

end Forms

/-- The bytes that complete a character are the rest of its bytes. -/
private theorem utf8EncodeChar_of_continues {b : UInt8} {s : Begun} {more : List UInt8} {v : Nat}
    (hs : begin? b = some s) (hc : s.Continues more v) :
    String.utf8EncodeChar (.ofNat v) = b :: more := by
  rcases cases_of_begin? hs with ⟨h, h'⟩ | ⟨h, h'⟩ | ⟨h, h'⟩
  · rw [begin?_two h h'] at hs
    cases hs
    cases hc with
    | last _ h₁ hv =>
      subst hv
      simp only [UInt8.le_iff_toNat_le, UInt8.reduceToNat] at h₁
      exact utf8EncodeChar_two ⟨h, h'⟩ h₁
    | more ho => exact absurd ho (Nat.lt_irrefl 1)
  · rw [begin?_three h h'] at hs
    cases hs
    cases hc with
    | last ho => cases ho
    | more _ h₁ hc =>
      cases hc with
      | last _ h₂ hv =>
        subst hv
        simp only [Begun.push, UInt8.le_iff_toNat_le, apply_ite UInt8.toNat, UInt8.reduceToNat]
          at h₁ h₂
        exact utf8EncodeChar_three ⟨h, h'⟩ (by grind) (by grind) (by grind) h₂
      | more ho => exact absurd ho (Nat.lt_irrefl 1)
  · rw [begin?_four h h'] at hs
    cases hs
    cases hc with
    | last ho => cases ho
    | more _ h₁ hc =>
      cases hc with
      | last ho => cases ho
      | more _ h₂ hc =>
        cases hc with
        | last _ h₃ hv =>
          subst hv
          simp only [Begun.push, UInt8.le_iff_toNat_le, apply_ite UInt8.toNat, UInt8.reduceToNat]
            at h₁ h₂ h₃
          exact utf8EncodeChar_four ⟨h, h'⟩ (by grind) (by grind) (by grind) h₂ h₃
        | more ho => exact absurd ho (Nat.lt_irrefl 1)

/-- The first byte of a character that is not ASCII begins it, and the others complete it. -/
private theorem exists_begin? {c : Char} (hc : 0x80 ≤ c.val.toNat) :
    ∃ b s more, String.utf8EncodeChar c = b :: more ∧ 0x80 ≤ b.toNat ∧ begin? b = some s ∧
      s.Continues more c.val.toNat := by
  have hvalid : c.val.toNat.isValidChar := c.valid
  unfold Nat.isValidChar at hvalid
  unfold String.utf8EncodeChar
  generalize c.val.toNat = v at hc hvalid ⊢
  have hlast : (UInt8.ofNat (v % 64 + 128)).toNat = v % 64 + 128 := by
    rw [UInt8.toNat_ofNat']
    omega
  have hsecond : (UInt8.ofNat (v / 64 % 64 + 128)).toNat = v / 64 % 64 + 128 := by
    rw [UInt8.toNat_ofNat']
    omega
  have hthird : (UInt8.ofNat (v / 4096 % 64 + 128)).toNat = v / 4096 % 64 + 128 := by
    rw [UInt8.toNat_ofNat']
    omega
  rw [if_neg (by omega)]
  split
  · next h =>
    have hlead : (UInt8.ofNat (v / 64 % 32 + 192)).toNat = v / 64 + 192 := by
      rw [UInt8.toNat_ofNat']
      omega
    refine ⟨_, _, _, rfl, by omega, begin?_two (by omega) (by omega), .last rfl ?_ ?_⟩
    · simp only [UInt8.le_iff_toNat_le, UInt8.reduceToNat, hlast]
      omega
    · simp only [Begun.push, hlead, hlast]
      omega
  · split
    · next h =>
      have hlead : (UInt8.ofNat (v / 4096 % 16 + 224)).toNat = v / 4096 + 224 := by
        rw [UInt8.toNat_ofNat']
        omega
      refine ⟨_, _, _, rfl, by omega, begin?_three (by omega) (by omega),
        .more (Nat.one_lt_succ_succ _) ?_ (.last rfl ?_ ?_)⟩
      · simp only [UInt8.le_iff_toNat_le, apply_ite UInt8.toNat, UInt8.reduceToNat, hlead, hsecond]
        grind
      · simp only [Begun.push, UInt8.le_iff_toNat_le, UInt8.reduceToNat, hlast]
        omega
      · simp only [Begun.push, hlead, hsecond, hlast]
        omega
    · next h =>
      have hlead : (UInt8.ofNat (v / 262144 % 8 + 240)).toNat = v / 262144 + 240 := by
        rw [UInt8.toNat_ofNat']
        omega
      refine ⟨_, _, _, rfl, by omega, begin?_four (by omega) (by omega),
        .more (Nat.one_lt_succ_succ _) ?_ (.more (Nat.one_lt_succ_succ _) ?_ (.last rfl ?_ ?_))⟩
      · simp only [UInt8.le_iff_toNat_le, apply_ite UInt8.toNat, UInt8.reduceToNat, hlead, hthird]
        grind
      · simp only [Begun.push, UInt8.le_iff_toNat_le, UInt8.reduceToNat, hsecond]
        omega
      · simp only [Begun.push, UInt8.le_iff_toNat_le, UInt8.reduceToNat, hlast]
        omega
      · simp only [Begun.push, hlead, hthird, hsecond, hlast]
        omega

private theorem decodeFrom_ascii {pos : Nat} {b : UInt8} {rest : List UInt8} (hb : b < 0x80) :
    decodeFrom pos none (b :: rest) =
      (decodeFrom (pos + 1) none rest).map (Char.ofNat b.toNat :: ·) := by
  rw [decodeFrom, if_pos hb]
  rfl

private theorem decodeFrom_begin? {pos : Nat} {b : UInt8} {rest : List UInt8} {s : Begun}
    (hb : ¬ b < 0x80) (hs : begin? b = some s) :
    decodeFrom pos none (b :: rest) = decodeFrom (pos + 1) (some s) rest := by
  rw [decodeFrom, if_neg hb, hs]

private theorem decodeFrom_utf8EncodeChar (pos : Nat) (c : Char) (rest : List UInt8) :
    decodeFrom pos none (String.utf8EncodeChar c ++ rest) =
      (decodeFrom (pos + (String.utf8EncodeChar c).length) none rest).map (c :: ·) := by
  by_cases hc : c.val.toNat < 0x80
  · have hb : (UInt8.ofNat c.val.toNat).toNat = c.val.toNat := by
      rw [UInt8.toNat_ofNat']
      omega
    have he : String.utf8EncodeChar c = [UInt8.ofNat c.val.toNat] := by
      rw [String.utf8EncodeChar, if_pos (by omega)]
    have hlt : UInt8.ofNat c.val.toNat < 0x80 := by
      rw [UInt8.lt_iff_toNat_lt, hb]
      exact hc
    rw [he, List.singleton_append, decodeFrom_ascii hlt, hb]
    exact congrArg (fun d ↦ (decodeFrom (pos + 1) none rest).map (d :: ·)) (Char.ofNat_toNat c)
  · obtain ⟨b, s, more, he, hb, hs, hm⟩ := exists_begin? (Nat.le_of_not_lt hc)
    have hb' : ¬ b < 0x80 := by
      rw [UInt8.lt_iff_toNat_lt]
      exact Nat.not_lt.mpr hb
    rw [he, List.cons_append, decodeFrom_begin? hb' hs, Begun.decodeFrom_of_continues hm,
      List.length_cons, Nat.add_assoc, Nat.add_comm 1]
    exact congrArg (fun d ↦ (decodeFrom _ none rest).map (d :: ·)) (Char.ofNat_toNat c)

private theorem decodeFrom_flatMap (pos : Nat) (cs : List Char) :
    decodeFrom pos none (cs.flatMap String.utf8EncodeChar) = .ok cs := by
  induction cs generalizing pos with
  | nil => rfl
  | cons c cs ih =>
    rw [List.flatMap_cons, decodeFrom_utf8EncodeChar, ih]
    rfl

private theorem flatMap_of_decodeFrom {pos : Nat} {bytes : List UInt8} {cs : List Char}
    (h : decodeFrom pos none bytes = .ok cs) : cs.flatMap String.utf8EncodeChar = bytes := by
  -- The bytes of a character are taken together, so the induction is on the length.
  induction hlen : bytes.length using Nat.strongRecOn generalizing bytes pos cs with
  | ind n ih =>
    subst hlen
    cases bytes with
    | nil =>
      cases h
      rfl
    | cons b bytes =>
      by_cases hb : b < 0x80
      · rw [decodeFrom_ascii hb] at h
        obtain ⟨cs, hd, rfl⟩ := exists_of_map_eq_ok h
        rw [List.flatMap_cons, ih _ (Nat.lt_succ_self _) hd rfl,
          utf8EncodeChar_one (UInt8.lt_iff_toNat_lt.mp hb)]
        rfl
      · cases hs : begin? b with
        | none =>
          rw [decodeFrom, if_neg hb, hs] at h
          cases h
        | some s =>
          rw [decodeFrom_begin? hb hs] at h
          obtain ⟨more, rest, v, cs, rfl, hm, hd, rfl⟩ :=
            Begun.exists_continues (owed_pos_of_begin? hs) h
          have hlt : rest.length < (b :: (more ++ rest)).length := by
            rw [List.length_cons, List.length_append]
            omega
          rw [List.flatMap_cons, ih _ hlt hd rfl, utf8EncodeChar_of_continues hs hm]
          rfl

/-- Bytes are decoded to a text exactly when they are the bytes of that text. -/
theorem decode_eq_ok_iff {bytes : List UInt8} {s : String} :
    decode bytes = .ok s ↔ encode s = bytes := by
  have hdecode : decode bytes = (decodeFrom 0 none bytes).map String.ofList := rfl
  rw [hdecode, ← String.ofList_toList (s := s), encode_ofList]
  constructor
  · intro h
    obtain ⟨cs, hd, hcs⟩ := exists_of_map_eq_ok h
    rw [← String.ofList_injective hcs]
    exact flatMap_of_decodeFrom hd
  · rintro rfl
    rw [decodeFrom_flatMap]
    rfl

end Text.Utf8
end MlogAsm
