import Sweep.Text.Utf8
/-!
# UTF-8 read back

A character is written in one to four bytes: a first byte that tells how many follow, and bytes that
hold six bits each. So one lemma for each number of bytes says what the first byte tells, and that
the second one lies within the bounds that it sets.

Those bounds also keep all characters of more than one byte beyond ASCII, even in bytes that are not
UTF-8 as a whole.

## Main results

* `pieces_encodeChar_append` — a character reads back from the front of some bytes.
* `decode?_encode` — a text reads back from its bytes.
* `count_lossy` — an ASCII character is read as often as its byte stands there.
-/

namespace Sweep.Text.Utf8

theorem toNat_ofNat {n : Nat} (h : n < 256) : (UInt8.ofNat n).toNat = n :=
  UInt8.toNat_ofNat_of_lt' h

/-! ## First bytes -/

theorem lead?_one {n : Nat} (h : n < 0x80) :
    lead? (.ofNat n) = some ⟨0, 0x80, 0xBF, n⟩ := by
  rw [lead?, toNat_ofNat (by omega), if_pos h]

theorem lead?_two {n : Nat} (hlow : 0x80 ≤ n) (hhigh : n < 0x800) :
    lead? (.ofNat (0xC0 + n / 64)) = some ⟨1, 0x80, 0xBF, n / 64⟩ := by
  have hlead : 0xC2 ≤ 0xC0 + n / 64 ∧ 0xC0 + n / 64 < 0xE0 := by omega
  simp only [lead?, toNat_ofNat (show 0xC0 + n / 64 < 256 by omega)]
  rw [if_neg (by omega), if_neg (by omega), if_pos hlead.2, Nat.add_sub_cancel_left]

theorem lead?_three {n : Nat} (hlow : 0x800 ≤ n) (hhigh : n < 0x10000)
    (hvalid : n < 0xD800 ∨ 0xDFFF < n) :
    ∃ low high, lead? (.ofNat (0xE0 + n / 4096)) = some ⟨2, low, high, n / 4096⟩ ∧
      low ≤ 0x80 + n / 64 % 64 ∧ 0x80 + n / 64 % 64 ≤ high := by
  have hbyte : 0xE0 + n / 4096 < 0xF0 := by omega
  simp only [lead?, toNat_ofNat (show 0xE0 + n / 4096 < 256 by omega)]
  rw [if_neg (by omega), if_neg (by omega), if_neg (by omega)]
  by_cases hfirst : 0xE0 + n / 4096 = 0xE0
  · have hbits : n / 4096 = 0 := by omega
    rw [if_pos hfirst, hbits]
    exact ⟨0xA0, 0xBF, rfl, by omega, by omega⟩
  · rw [if_neg hfirst]
    by_cases hsurrogate : 0xE0 + n / 4096 = 0xED
    · have hbits : n / 4096 = 13 := by omega
      rw [if_pos hsurrogate, hbits]
      exact ⟨0x80, 0x9F, rfl, by omega, by omega⟩
    · rw [if_neg hsurrogate, if_pos hbyte, Nat.add_sub_cancel_left]
      exact ⟨0x80, 0xBF, rfl, by omega, by omega⟩

theorem lead?_four {n : Nat} (hlow : 0x10000 ≤ n) (hhigh : n < 0x110000) :
    ∃ low high, lead? (.ofNat (0xF0 + n / 262144)) = some ⟨3, low, high, n / 262144⟩ ∧
      low ≤ 0x80 + n / 4096 % 64 ∧ 0x80 + n / 4096 % 64 ≤ high := by
  simp only [lead?, toNat_ofNat (show 0xF0 + n / 262144 < 256 by omega)]
  rw [if_neg (by omega), if_neg (by omega), if_neg (by omega), if_neg (by omega),
    if_neg (by omega), if_neg (by omega)]
  by_cases hfirst : 0xF0 + n / 262144 = 0xF0
  · have hbits : n / 262144 = 0 := by omega
    rw [if_pos hfirst, hbits]
    exact ⟨0x90, 0xBF, rfl, by omega, by omega⟩
  · rw [if_neg hfirst]
    by_cases hlast : 0xF0 + n / 262144 < 0xF4
    · rw [if_pos hlast, Nat.add_sub_cancel_left]
      exact ⟨0x80, 0xBF, rfl, by omega, by omega⟩
    · have hbits : n / 262144 = 4 := by omega
      rw [if_neg hlast, hbits, if_pos rfl]
      exact ⟨0x80, 0x8F, rfl, by omega, by omega⟩

/-! ## Whole characters -/

theorem encodeChar_ne_nil (c : Char) : encodeChar c ≠ [] := by
  unfold encodeChar
  simp only
  repeat' split
  all_goals exact List.cons_ne_nil _ _

/-- A byte within the bounds adds its six bits. -/
theorem readOn_cons {low high follow bits six : Nat} {bytes : List UInt8} (hsix : six < 64)
    (hlow : low ≤ 0x80 + six) (hhigh : 0x80 + six ≤ high) :
    readOn low high (follow + 1) bits (.ofNat (0x80 + six) :: bytes) =
      readOn 0x80 0xBF follow (bits * 64 + six) bytes := by
  rw [readOn, toNat_ofNat (by omega), Nat.add_sub_cancel_left, if_pos]
  simp [hlow, hhigh]

theorem pieces_cons {byte : UInt8} {bytes rest : List UInt8} {lead : Lead} {c : Char}
    (hlead : lead? byte = some lead)
    (hread : readOn lead.low lead.high lead.follow lead.bits bytes = (some c.toNat, rest)) :
    pieces (byte :: bytes) = some c :: pieces rest := by
  rw [pieces, hlead]
  simp only [hread, Option.map_some, Char.ofNat_toNat]

/-- A character reads back from the front of some bytes. -/
theorem pieces_encodeChar_append (c : Char) (rest : List UInt8) :
    pieces (encodeChar c ++ rest) = some c :: pieces rest := by
  have hvalid : c.toNat < 0xD800 ∨ 0xDFFF < c.toNat ∧ c.toNat < 0x110000 := c.valid
  unfold encodeChar
  by_cases hone : c.toNat < 0x80
  · rw [if_pos hone]
    exact pieces_cons (lead?_one hone) rfl
  · rw [if_neg hone]
    by_cases htwo : c.toNat < 0x800
    · rw [if_pos htwo]
      apply pieces_cons (lead?_two (by omega) htwo)
      show readOn 0x80 0xBF 1 (c.toNat / 64) (_ :: rest) = _
      rw [readOn_cons (by omega) (by omega) (by omega), readOn]
      congr 2
      omega
    · rw [if_neg htwo]
      by_cases hthree : c.toNat < 0x10000
      · rw [if_pos hthree]
        obtain ⟨low, high, hlead, hlow, hhigh⟩ :=
          lead?_three (by omega) hthree (by omega : c.toNat < 0xD800 ∨ 0xDFFF < c.toNat)
        apply pieces_cons hlead
        show readOn low high 2 (c.toNat / 4096) (_ :: _ :: rest) = _
        rw [readOn_cons (by omega) hlow hhigh, readOn_cons (by omega) (by omega) (by omega), readOn]
        congr 2
        omega
      · rw [if_neg hthree]
        obtain ⟨low, high, hlead, hlow, hhigh⟩ :=
          lead?_four (by omega) (by omega : c.toNat < 0x110000)
        apply pieces_cons hlead
        show readOn low high 3 (c.toNat / 262144) (_ :: _ :: _ :: rest) = _
        rw [readOn_cons (by omega) hlow hhigh, readOn_cons (by omega) (by omega) (by omega),
          readOn_cons (by omega) (by omega) (by omega), readOn]
        congr 2
        omega

theorem pieces_encode (cs : List Char) : pieces (encode cs) = cs.map some := by
  induction cs with
  | nil =>
      show pieces [] = []
      rw [pieces]
  | cons c rest ih =>
      show pieces (encodeChar c ++ encode rest) = _
      rw [pieces_encodeChar_append, ih, List.map_cons]

/-- A text reads back from its bytes. -/
theorem decode?_encode (cs : List Char) : decode? (encode cs) = some cs := by
  rw [decode?, pieces_encode]
  induction cs with
  | nil => rfl
  | cons c rest ih =>
      rw [List.map_cons, List.mapM_cons, ih]
      rfl

theorem lossy_encode (cs : List Char) : lossy (encode cs) = cs :=
  lossy_of_decode? (decode?_encode cs)

theorem encode_append (cs more : List Char) : encode (cs ++ more) = encode cs ++ encode more :=
  List.flatMap_append

/-! ## ASCII characters -/

/-- Reading on only makes a number greater. -/
theorem le_of_readOn {low high follow bits n : Nat} {bytes rest : List UInt8}
    (h : readOn low high follow bits bytes = (some n, rest)) :
    bits ≤ n ∧ (0 < follow → bits * 64 ≤ n) := by
  fun_induction readOn low high follow bits bytes with
  | case1 => simp_all
  | case2 => cases h
  | case3 low high follow bits byte bytes hbounds ih =>
      obtain ⟨hle, -⟩ := ih h
      omega
  | case4 => cases h

/-- What a first byte tells keeps the bytes that follow, and a character of more than one byte, beyond
ASCII. -/
theorem bounds_of_lead? {byte : UInt8} {lead : Lead} (h : lead? byte = some lead) :
    0x80 ≤ lead.low ∧
      ((lead.follow = 0 ∧ lead.bits = byte.toNat) ∨ (lead.follow = 1 ∧ 2 ≤ lead.bits) ∨
        (1 < lead.follow ∧ 2 ≤ lead.bits * 64 + (lead.low - 0x80))) := by
  unfold lead? at h
  simp only at h
  repeat' split at h
  all_goals grind

/-- A character is either its only byte or beyond ASCII. -/
theorem eq_or_le_of_readOn {byte : UInt8} {lead : Lead} {n : Nat} {bytes rest : List UInt8}
    (hlead : lead? byte = some lead)
    (hread : readOn lead.low lead.high lead.follow lead.bits bytes = (some n, rest)) :
    n = byte.toNat ∨ 0x80 ≤ n := by
  obtain ⟨follow, low, high, bits⟩ := lead
  obtain ⟨-, hbounds⟩ := bounds_of_lead? hlead
  simp only at hread hbounds
  cases follow with
  | zero =>
      rw [readOn] at hread
      cases hread
      omega
  | succ follow =>
      cases bytes with
      | nil => cases hread
      | cons next bytes =>
          rw [readOn] at hread
          split at hread
          · rename_i hnext
            simp only [Bool.and_eq_true, decide_eq_true_eq] at hnext
            obtain ⟨hle, hmore⟩ := le_of_readOn hread
            omega
          · cases hread

/-- Only a number that is no code point reads as the null character in place of another. -/
theorem toNat_charOfNat {n : Nat} (h : Char.ofNat n ≠ '\x00') : (Char.ofNat n).toNat = n := by
  by_cases hvalid : n.isValidChar
  · rw [Char.ofNat, dif_pos hvalid]
    rfl
  · exact absurd (dif_neg hvalid) h

/-- None of the bytes that are read on is an ASCII character. -/
theorem count_readOn {low high follow bits : Nat} {bytes : List UInt8} (hlow : 0x80 ≤ low)
    {ascii : UInt8} (hascii : ascii.toNat < 0x80) :
    (readOn low high follow bits bytes).2.count ascii = bytes.count ascii := by
  fun_induction readOn low high follow bits bytes with
  | case1 => rfl
  | case2 => rfl
  | case3 low high follow bits byte bytes hbounds ih =>
      simp only [Bool.and_eq_true, decide_eq_true_eq] at hbounds
      have hne : byte ≠ ascii := by
        rintro rfl
        omega
      rw [List.count_cons_of_ne hne]
      exact ih (by omega)
  | case4 => rfl

/-- A first byte stands for an ASCII character if and only if it is that character. -/
theorem read_eq_some_iff {c : Char} (hnull : c ≠ '\x00') (hascii : c.toNat < 0x80) {byte : UInt8}
    {lead : Lead} (hlead : lead? byte = some lead) (bytes : List UInt8) :
    (readOn lead.low lead.high lead.follow lead.bits bytes).1.map Char.ofNat = some c ↔
      byte = .ofNat c.toNat := by
  constructor
  · intro h
    obtain ⟨n, hn, rfl⟩ := Option.map_eq_some_iff.1 h
    have hvalid : (Char.ofNat n).toNat = n := toNat_charOfNat hnull
    rw [hvalid] at hascii ⊢
    rcases eq_or_le_of_readOn hlead (Prod.ext hn rfl) with rfl | hbeyond
    · exact UInt8.ofNat_toNat.symm
    · omega
  · rintro rfl
    rw [lead?_one hascii] at hlead
    cases hlead
    rw [readOn, Option.map_some, Char.ofNat_toNat]

theorem count_pieces {c : Char} (hnull : c ≠ '\x00') (hascii : c.toNat < 0x80)
    (bytes : List UInt8) : (pieces bytes).count (some c) = bytes.count (.ofNat c.toNat) := by
  have hbyte : (UInt8.ofNat c.toNat).toNat < 0x80 := by
    rw [toNat_ofNat (by omega)]
    exact hascii
  fun_induction pieces bytes with
  | case1 => rfl
  | case2 byte bytes hlead ih =>
      have hne : byte ≠ .ofNat c.toNat := by
        rintro rfl
        rw [lead?_one hascii] at hlead
        cases hlead
      rw [List.count_cons_of_ne (Option.some_ne_none c).symm, List.count_cons_of_ne hne, ih]
  | case3 byte bytes lead hlead read ih =>
      have hread := read_eq_some_iff hnull hascii hlead bytes
      rw [List.count_cons, List.count_cons, ih, count_readOn (bounds_of_lead? hlead).1 hbyte]
      simp only [beq_iff_eq, hread, read]

/-- An ASCII character is read as often as its byte stands there, even from bytes that are not UTF-8
as a whole. -/
theorem count_lossy {c : Char} (hnull : c ≠ '\x00') (hascii : c.toNat < 0x80)
    (bytes : List UInt8) : (lossy bytes).count c = bytes.count (.ofNat c.toNat) := by
  have hbad : c ≠ '\uFFFD' := by
    rintro rfl
    exact absurd hascii (by decide)
  rw [← count_pieces hnull hascii, lossy, List.count, List.count, List.countP_map]
  apply List.countP_congr
  intro piece _
  cases piece with
  | none => simp [hbad.symm]
  | some read => simp

/-- An ASCII character is read only where its byte stands. -/
theorem mem_of_mem_lossy {c : Char} (hnull : c ≠ '\x00') (hascii : c.toNat < 0x80)
    {bytes : List UInt8} (h : c ∈ lossy bytes) : UInt8.ofNat c.toNat ∈ bytes := by
  rw [← List.count_pos_iff] at h ⊢
  rwa [count_lossy hnull hascii] at h

end Sweep.Text.Utf8
