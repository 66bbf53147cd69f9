import Verilua.Wave.Format

/-!
# The fast path and the slow path

What `vpi_get_value` makes of an entry of `optValueVec` against what it makes of the bits in the
waveform, for 2-state values of at most 32 bits. The two differ where the slow path pads a string
and the fast path does not, and the other way round.
-/

namespace Verilua.Wave

open Put (VecVal)

variable {bits retVC : List Bit} {bytes : List UInt8} {bv : BitVecRef} {n : Nat} {format : Format}

/-! ### Bits -/

lemma Bit.toNat_lt_two (bit : Bit) : bit.toNat < 2 := by
  cases bit <;> decide

lemma toNat_lt_two {d : Nat} (h : d ∈ bits.map Bit.toNat) : d < 2 := by
  obtain ⟨bit, -, rfl⟩ := List.mem_map.mp h
  exact bit.toNat_lt_two

lemma number_lt (bits : List Bit) : Bit.number bits < 2 ^ bits.length := by
  have h : Bit.number bits < 2 ^ (bits.map Bit.toNat).length :=
    Numeral.value_lt fun _ => toNat_lt_two
  rwa [List.length_map] at h

lemma number_cons (bit : Bit) (bits : List Bit) :
    Bit.number (bit :: bits) = bit.toNat * 2 ^ bits.length + Bit.number bits := by
  rw [Bit.number, List.map_cons, Numeral.value_cons, List.length_map, Bit.number]

lemma number_append (bits bits' : List Bit) :
    Bit.number (bits ++ bits') = Bit.number bits * 2 ^ bits'.length + Bit.number bits' := by
  rw [Bit.number, List.map_append, Numeral.value_append, List.length_map, Bit.number, Bit.number]

lemma number_lt_of_le (bits : List Bit) (h : bits.length ≤ 32) : Bit.number bits < 2 ^ 32 :=
  (number_lt bits).trans_le (Nat.pow_le_pow_right (by decide) h)

/-! ### Hexadecimal strings -/

/-- The characters are the digits of `n`, as many as `w` bits need. -/
def SpellsHex (chars : List Char) (w n : Nat) : Prop :=
  ∃ ds : List Nat, chars = ds.map Nat.digitChar ∧ ds.length = (w + 3) / 4 ∧ (∀ d ∈ ds, d < 16) ∧
    Numeral.value 16 ds = n

/-- The number needs all the hexadecimal digits of its width. -/
def fillsHex (w n : Nat) : Prop := (w + 3) / 4 = 1 ∨ 16 ^ ((w + 3) / 4 - 1) ≤ n

instance (w n : Nat) : Decidable (fillsHex w n) :=
  inferInstanceAs (Decidable (_ ∨ _))

lemma SpellsHex.eq_toDigits_iff {chars : List Char} {w : Nat} (h : SpellsHex chars w n)
    (hw : 0 < w) : Nat.toDigits 16 n = chars ↔ fillsHex w n := by
  obtain ⟨ds, rfl, hlen, hlt, rfl⟩ := h
  have hne : ds ≠ [] := fun heq => by
    rw [heq, List.length_nil] at hlen
    omega
  rw [Numeral.toDigits_value_iff (by decide) hlt hne, hlen, fillsHex]

lemma SpellsHex.cons {chars : List Char} {d w k : Nat} (h : SpellsHex chars (4 * k) n) (hd : d < 16)
    (hw : (w + 3) / 4 = k + 1) : SpellsHex (Nat.digitChar d :: chars) w (d * 2 ^ (4 * k) + n) := by
  obtain ⟨ds, rfl, hlen, hlt, rfl⟩ := h
  have hlen' : ds.length = k := by omega
  refine ⟨d :: ds, rfl, by rw [List.length_cons, hlen', hw], fun e he => ?_, ?_⟩
  · rcases List.mem_cons.mp he with rfl | he
    · exact hd
    · exact hlt e he
  · rw [Numeral.value_cons, hlen', pow_mul]
    norm_num

lemma hexChar_eq {d : Nat} (h : d < 16) : hexChar d = Nat.digitChar d := by
  have hall : ∀ d : Fin 16, hexChar d = Nat.digitChar d := by decide
  exact hall ⟨d, h⟩

lemma nibble_char (h : bits.all Bit.isTwoState = true) :
    nibble (bits.map Bit.char) = Bit.number bits := by
  induction bits using List.reverseRecOn with
  | nil => rfl
  | append_singleton bits bit ih =>
    rw [List.all_append, Bool.and_eq_true] at h
    have hbit : bit.char.toNat - '0'.toNat = bit.toNat := by
      cases bit with
      | zero | one => rfl
      | x | z => simp [Bit.isTwoState] at h
    have hih := ih h.1
    unfold nibble at hih ⊢
    rw [List.map_append, List.foldl_append, hih, List.map_singleton, List.foldl_cons, List.foldl_nil,
      hbit, ← Nat.shiftLeft_add_eq_or_of_lt bit.toNat_lt_two, Nat.shiftLeft_eq, number_append]
    simp [Bit.number]

lemma hexChar_nibble (h : bits.all Bit.isTwoState = true) (hlen : bits.length ≤ 4) :
    hexChar (nibble (bits.map Bit.char)) = Nat.digitChar (Bit.number bits) := by
  have hlt : Bit.number bits < 16 :=
    (number_lt bits).trans_le (Nat.pow_le_pow_right (by decide) hlen)
  rw [nibble_char h, hexChar_eq hlt]

lemma hexChunks_spells : ∀ bits : List Bit, bits.all Bit.isTwoState = true → bits.length % 4 = 0 →
    SpellsHex (hexChunks (bits.map Bit.char)) bits.length (Bit.number bits)
  | [], _, _ => ⟨[], rfl, rfl, by simp, rfl⟩
  | [_], _, h | [_, _], _, h | [_, _, _], _, h => by simp at h
  | a :: b :: c :: d :: rest, hall, hmod => by
    have hsplit : a :: b :: c :: d :: rest = [a, b, c, d] ++ rest := rfl
    have hboth := hall
    rw [hsplit, List.all_append, Bool.and_eq_true] at hboth
    have hmod' : rest.length % 4 = 0 := by
      simp only [List.length_cons] at hmod
      omega
    have hrest := hexChunks_spells rest hboth.2 hmod'
    have hk : rest.length = 4 * (rest.length / 4) := by omega
    have hlt : Bit.number [a, b, c, d] < 16 := number_lt [a, b, c, d]
    have hhead : hexChunks ((a :: b :: c :: d :: rest).map Bit.char) =
        Nat.digitChar (Bit.number [a, b, c, d]) :: hexChunks (rest.map Bit.char) := by
      rw [← hexChar_nibble hboth.1 (by simp)]
      rfl
    rw [hhead, hsplit, number_append, hk]
    refine SpellsHex.cons (k := rest.length / 4) (by rwa [← hk]) hlt ?_
    simp only [List.length_append, List.length_cons, List.length_nil]
    omega

/-- `wellen` begins with the digit that has fewer than four bits. -/
lemma bitStringToHex_spells (hne : bits ≠ []) (hall : bits.all Bit.isTwoState = true) :
    SpellsHex (bitStringToHex (bits.map Bit.char)) bits.length (Bit.number bits) := by
  unfold bitStringToHex
  simp only [List.length_map]
  split_ifs with hpad
  · have hpos : 0 < bits.length := List.length_pos_iff.mpr hne
    set k := 4 - (4 - bits.length % 4) % 4 with hk
    have hk4 : k < 4 ∧ k ≤ bits.length ∧ (bits.length - k) % 4 = 0 := by omega
    have hsplit : bits.take k ++ bits.drop k = bits := List.take_append_drop k bits
    have hboth := hall
    rw [← hsplit, List.all_append, Bool.and_eq_true] at hboth
    have hlen : (bits.take k).length = k := by rw [List.length_take]; omega
    have hdrop : (bits.drop k).length = 4 * ((bits.length - k) / 4) := by
      rw [List.length_drop]
      omega
    have hrest := hexChunks_spells (bits.drop k) hboth.2 (by rw [List.length_drop]; omega)
    rw [← List.map_take, ← List.map_drop, hexChar_nibble hboth.1 (by omega)]
    have hnum : Bit.number bits =
        Bit.number (bits.take k) * 2 ^ (4 * ((bits.length - k) / 4)) + Bit.number (bits.drop k) := by
      rw [← hdrop, ← number_append, hsplit]
    rw [hnum]
    refine SpellsHex.cons (hdrop ▸ hrest) ?_ (by omega)
    exact (number_lt _).trans_le (Nat.pow_le_pow_right (by decide) (by omega : _ ≤ 4))
  · exact hexChunks_spells bits hall (by omega)

/-- What the loop has written when it comes to the bits in front of `retVC`. -/
structure HexLoop.Reads (s : HexLoop) (retVC : List Bit) : Prop where
  twoState : s.hasX = false ∧ s.hasZ = false
  tmpIdx : s.tmpIdx = retVC.length % 4
  tmpVal : s.tmpVal < 2 ^ s.tmpIdx
  buffer : ∃ high, Bit.number retVC = s.tmpVal * 2 ^ (4 * (retVC.length / 4)) + high ∧
    SpellsHex s.buffer (4 * (retVC.length / 4)) high

lemma HexLoop.digit_eq {s : HexLoop} (h : s.hasX = false ∧ s.hasZ = false) (hlt : s.tmpVal < 16) :
    s.digit = Nat.digitChar s.tmpVal := by
  have hall : ∀ d : Fin 16, ['0', '1', '2', '3', '4', '5', '6', '7', '8', '9', 'a', 'b', 'c', 'd',
      'e', 'f'].getD d '0' = Nat.digitChar d := by decide
  rw [HexLoop.digit, h.1, h.2]
  exact hall ⟨s.tmpVal, hlt⟩

lemma HexLoop.Reads.take {s : HexLoop} {bit : Bit} (h : s.Reads retVC)
    (hbit : bit.isTwoState = true) : (s.take bit).Reads (bit :: retVC) := by
  obtain ⟨⟨hx, hz⟩, hidx, hval, low, hnum, hspells⟩ := h
  have hsum : (if bit = .one then s.tmpVal + 1 <<< s.tmpIdx else s.tmpVal) =
      bit.toNat * 2 ^ s.tmpIdx + s.tmpVal := by
    cases bit <;> simp [Bit.toNat, Nat.shiftLeft_eq, Nat.add_comm]
  have hlt : bit.toNat * 2 ^ s.tmpIdx + s.tmpVal < 2 ^ (s.tmpIdx + 1) := by
    have hle : bit.toNat * 2 ^ s.tmpIdx ≤ 1 * 2 ^ s.tmpIdx :=
      Nat.mul_le_mul_right _ (Nat.le_of_lt_succ bit.toNat_lt_two)
    rw [pow_succ]
    omega
  have hlen : retVC.length = 4 * (retVC.length / 4) + s.tmpIdx := by omega
  have hnum' : Bit.number (bit :: retVC) =
      (bit.toNat * 2 ^ s.tmpIdx + s.tmpVal) * 2 ^ (4 * (retVC.length / 4)) + low := by
    rw [number_cons, hnum, Nat.add_mul, Nat.mul_assoc, ← pow_add, Nat.add_comm s.tmpIdx, ← hlen,
      Nat.add_assoc]
  have hxz : (s.hasX || decide (bit = .x)) = false ∧ (s.hasZ || decide (bit = .z)) = false := by
    cases bit with
    | zero | one => simp [hx, hz]
    | x | z => simp [Bit.isTwoState] at hbit
  unfold HexLoop.take
  rw [hsum]
  dsimp only
  split_ifs with hfull
  · have hdiv : (bit :: retVC).length / 4 = retVC.length / 4 + 1 := by
      rw [List.length_cons]
      omega
    have hlt' : bit.toNat * 2 ^ s.tmpIdx + s.tmpVal < 16 := by
      rw [hfull] at hlt
      exact hlt
    refine ⟨⟨rfl, rfl⟩, by simp only [List.length_cons]; omega, by simp, _,
      by rw [Nat.zero_mul, Nat.zero_add], ?_⟩
    rw [hnum', HexLoop.digit_eq hxz hlt', hdiv]
    exact hspells.cons hlt' (by omega)
  · have hdiv : (bit :: retVC).length / 4 = retVC.length / 4 := by
      rw [List.length_cons]
      omega
    refine ⟨hxz, by simp only [List.length_cons]; omega, hlt, low, ?_, ?_⟩
    · rw [hnum', hdiv]
    · rw [hdiv]
      exact hspells

lemma hexLoop_reads (hall : retVC.all Bit.isTwoState = true) :
    (retVC.foldr HexLoop.take HexLoop.init).Reads retVC := by
  induction retVC with
  | nil =>
    exact ⟨⟨rfl, rfl⟩, rfl, by decide, 0, rfl, [], rfl, rfl, by simp, rfl⟩
  | cons bit retVC ih =>
    rw [List.all_cons, Bool.and_eq_true] at hall
    exact (ih hall.2).take hall.1

lemma fsdbHexStr_spells (hall : retVC.all Bit.isTwoState = true) :
    SpellsHex (fsdbHexStr retVC) retVC.length (Bit.number retVC) := by
  obtain ⟨hxz, hidx, hval, low, hnum, hspells⟩ := hexLoop_reads hall
  unfold fsdbHexStr
  dsimp only
  split_ifs with hrest
  · have hlt : (retVC.foldr HexLoop.take HexLoop.init).tmpVal < 16 :=
      hval.trans_le (Nat.pow_le_pow_right (by decide) (by omega : _ ≤ 4))
    rw [HexLoop.digit_eq hxz hlt, hnum]
    exact hspells.cons hlt (by omega)
  · have hzero : (retVC.foldr HexLoop.take HexLoop.init).tmpVal = 0 := by
      rw [not_not.mp hrest] at hval
      omega
    have hlen : 4 * (retVC.length / 4) = retVC.length := by omega
    rw [hzero, Nat.zero_mul, Nat.zero_add] at hnum
    rw [hnum]
    rwa [hlen] at hspells

/-! ### Integers -/

lemma toNat_one_shiftLeft {k : Nat} (hk : k < 32) :
    ((1 : UInt32) <<< UInt32.ofNat k).toNat = 2 ^ k := by
  have hlt : 2 ^ k < 2 ^ 32 := Nat.pow_lt_pow_right (by decide) hk
  have hk' : k % 2 ^ 32 = k := Nat.mod_eq_of_lt (hk.trans (by decide))
  rw [UInt32.toNat_shiftLeft, UInt32.toNat_ofNat', hk', Nat.mod_eq_of_lt hk]
  rw [show (1 : UInt32).toNat = 1 from rfl, Nat.one_shiftLeft, Nat.mod_eq_of_lt hlt]

lemma toNat_add_bit (value : UInt32) (bit : Bit) {k : Nat} (hk : k < 32)
    (hlt : value.toNat + bit.toNat * 2 ^ k < 2 ^ 32) :
    (if bit = .one then value + 1 <<< UInt32.ofNat k else value).toNat =
      value.toNat + bit.toNat * 2 ^ k := by
  cases bit with
  | one =>
    rw [if_pos rfl, UInt32.toNat_add, toNat_one_shiftLeft hk]
    simp only [Bit.toNat, Nat.one_mul] at hlt ⊢
    exact Nat.mod_eq_of_lt hlt
  | zero | x | z => simp [Bit.toNat]

lemma toNat_fsdbSum {value : UInt32} (hlen : retVC.length ≤ 32)
    (hlt : value.toNat + Bit.number retVC < 2 ^ 32) :
    (fsdbSum value retVC).toNat = value.toNat + Bit.number retVC := by
  induction retVC generalizing value with
  | nil => rfl
  | cons bit retVC ih =>
    rw [List.length_cons] at hlen
    rw [number_cons] at hlt ⊢
    have hbit := toNat_add_bit value bit (k := retVC.length) (by omega) (by omega)
    rw [fsdbSum, ih (by omega) (by rw [hbit]; omega), hbit, Nat.add_assoc]

lemma toNat_fsdbSum_zero (hlen : retVC.length ≤ 32) :
    (fsdbSum 0 retVC).toNat = Bit.number retVC := by
  rw [toNat_fsdbSum hlen (by simpa using number_lt_of_le _ hlen)]
  simp

lemma fsdbOptValue_eq : fsdbOptValue retVC = fsdbSum 0 retVC := by
  match retVC with
  | [] | _ :: _ :: _ => rfl
  | [bit] => cases bit <;> rfl

lemma vectorLoop_reads (hlen : retVC.length ≤ 32) :
    let s := retVC.foldr VectorLoop.take ⟨[], 0, 0⟩
    if retVC.length = 32 then s = ⟨[⟨UInt32.ofNat (Bit.number retVC), 0⟩], 0, 0⟩
    else s = ⟨[], UInt32.ofNat (Bit.number retVC), retVC.length⟩ := by
  induction retVC with
  | nil => rfl
  | cons bit retVC ih =>
    rw [List.length_cons] at hlen
    have hlt := number_lt_of_le (bit :: retVC) hlen
    have hlt' := number_lt_of_le retVC (by omega)
    have hprev := ih (by omega)
    dsimp only at hprev
    rw [if_neg (by omega)] at hprev
    have hmod : (UInt32.ofNat (Bit.number retVC)).toNat = Bit.number retVC :=
      UInt32.toNat_ofNat_of_lt' hlt'
    have hbit : (if bit = .one then UInt32.ofNat (Bit.number retVC) +
        1 <<< UInt32.ofNat retVC.length else UInt32.ofNat (Bit.number retVC)) =
          UInt32.ofNat (Bit.number (bit :: retVC)) := by
      rw [number_cons] at hlt ⊢
      refine UInt32.toNat_inj.mp ?_
      rw [toNat_add_bit _ _ (by omega) (by rw [hmod]; omega), hmod, UInt32.toNat_ofNat_of_lt' hlt,
        Nat.add_comm]
    simp only [List.foldr_cons, hprev, VectorLoop.take, hbit, List.length_cons, List.nil_append]
    split_ifs <;> rfl

lemma fsdbVector_eq (hne : retVC ≠ []) (hlen : retVC.length ≤ 32) :
    fsdbVector retVC = [⟨fsdbSum 0 retVC, 0⟩] := by
  have hsum : fsdbSum 0 retVC = UInt32.ofNat (Bit.number retVC) :=
    UInt32.toNat_inj.mp (by
      rw [toNat_fsdbSum_zero hlen, UInt32.toNat_ofNat_of_lt' (number_lt_of_le _ hlen)])
  have hpos : 0 < retVC.length := List.length_pos_iff.mpr hne
  have hloop := vectorLoop_reads hlen
  unfold fsdbVector
  dsimp only at hloop ⊢
  rw [hsum]
  split_ifs at hloop with hfull
  · rw [hloop]
    rfl
  · rw [hloop]
    simp [hne]

/-! ### Words of bytes -/

lemma value_bytes_lt (bytes : List UInt8) :
    Numeral.value 256 (bytes.map UInt8.toNat) < 2 ^ (8 * bytes.length) := by
  have hds : ∀ d ∈ bytes.map UInt8.toNat, d < 256 := by
    intro d hd
    obtain ⟨byte, -, rfl⟩ := List.mem_map.mp hd
    exact byte.toNat_lt
  have h := Numeral.value_lt hds
  rw [List.length_map] at h
  rwa [pow_mul]

lemma toNat_readU32 (hlen : bytes.length ≤ 4) :
    (readU32 bytes).toNat = Numeral.value 256 (bytes.map UInt8.toNat) :=
  UInt32.toNat_ofNat_of_lt' ((value_bytes_lt bytes).trans_le
    (Nat.pow_le_pow_right (by decide) (by omega : _ ≤ 32)))

lemma toNat_firstWord {word : UInt32} (hlen : bytes.length ≤ 4)
    (hword : 2 ^ (8 * bytes.length) ∣ word.toNat) :
    (firstWord word bytes).toNat = word.toNat + Numeral.value 256 (bytes.map UInt8.toNat) := by
  induction bytes generalizing word with
  | nil => rfl
  | cons byte rest ih =>
    rw [List.length_cons] at hlen hword
    have hbyte : byte.toNat * 2 ^ (8 * rest.length) < 2 ^ (8 * (rest.length + 1)) := by
      rw [Nat.mul_add, Nat.mul_one, pow_add, Nat.mul_comm]
      exact Nat.mul_lt_mul_of_pos_left byte.toNat_lt (Nat.pow_pos (by decide))
    have hshift : (byte.toUInt32 <<< UInt32.ofNat (rest.length * 8)).toNat =
        byte.toNat * 2 ^ (8 * rest.length) := by
      have hlt : byte.toNat * 2 ^ (8 * rest.length) < 2 ^ 32 :=
        hbyte.trans_le (Nat.pow_le_pow_right (by decide) (by omega))
      have hk : rest.length * 8 % 2 ^ 32 % 32 = 8 * rest.length := by omega
      rw [UInt32.toNat_shiftLeft, UInt32.toNat_ofNat', hk, UInt8.toNat_toUInt32, Nat.shiftLeft_eq,
        Nat.mod_eq_of_lt hlt]
    -- the bits of the byte lie below those of the word
    have hor : (word ||| byte.toUInt32 <<< UInt32.ofNat (rest.length * 8)).toNat =
        word.toNat + byte.toNat * 2 ^ (8 * rest.length) := by
      obtain ⟨high, hhigh⟩ := hword
      rw [UInt32.toNat_or, hshift, hhigh, Nat.mul_comm, ← Nat.shiftLeft_eq,
        Nat.shiftLeft_add_eq_or_of_lt hbyte]
    have hdvd : 2 ^ (8 * rest.length) ∣
        (word ||| byte.toUInt32 <<< UInt32.ofNat (rest.length * 8)).toNat := by
      rw [hor]
      refine (Nat.dvd_add_right ?_).mpr (Nat.dvd_mul_left _ _)
      exact (Nat.pow_dvd_pow 2 (by omega)).trans hword
    have hpow : (256 : Nat) ^ rest.length = 2 ^ (8 * rest.length) := by
      rw [pow_mul]
      norm_num
    rw [firstWord, ih (by omega) hdvd, hor, List.map_cons, Numeral.value_cons, List.length_map, hpow,
      Nat.add_assoc]

lemma bytesToU32sBe_eq (hne : bytes ≠ []) (hlen : bytes.length ≤ 4) :
    bytesToU32sBe bytes = [bytesLastU32Be bytes] := by
  have hpos : 0 < bytes.length := List.length_pos_iff.mpr hne
  by_cases hfull : bytes.length = 4
  · obtain ⟨a, b, c, d, rfl⟩ : ∃ a b c d, bytes = [a, b, c, d] := by
      match bytes, hfull with
      | [a, b, c, d], _ => exact ⟨a, b, c, d, rfl⟩
    simp [bytesToU32sBe, bytesLastU32Be, chunksExact]
  · have hk : 4 - (4 - bytes.length % 4) % 4 = bytes.length := by omega
    have hword : firstWord 0 bytes = readU32 (List.replicate (4 - bytes.length) 0 ++ bytes) := by
      refine UInt32.toNat_inj.mp ?_
      rw [toNat_firstWord hlen (Nat.dvd_zero _), toNat_readU32 (by simp; omega), List.map_append,
        List.map_replicate]
      exact (Nat.zero_add _).trans (Numeral.value_zeros_append 256 _ _).symm
    unfold bytesToU32sBe bytesLastU32Be
    dsimp only
    rw [if_pos (by omega), if_neg (by omega), hk, List.take_length, List.drop_length, hword]
    rfl

lemma toNat_bytesLastU32Be (hlen : bv.width ≤ 32) (htwo : bv.isTwoState = true) :
    (bytesLastU32Be bv.beBytes).toNat = Bit.number bv.bits := by
  have hbytes : bv.beBytes.length ≤ 4 := by
    have := bv.length_beBytes
    unfold BitVecRef.width at hlen
    omega
  rw [← bv.value_beBytes htwo]
  unfold bytesLastU32Be
  split_ifs with hfull
  · have hdrop : bv.beBytes.length - 4 = 0 := by omega
    rw [hdrop, List.drop_zero, toNat_readU32 hbytes]
  · rw [toNat_readU32 (by simp; omega), List.map_append, List.map_replicate]
    exact Numeral.value_zeros_append 256 _ _

lemma bytesToU32sBe_beBytes (hlen : bv.width ≤ 32) :
    bytesToU32sBe bv.beBytes = [bytesLastU32Be bv.beBytes] := by
  have hbytes := bv.length_beBytes
  have hpos : 0 < bv.bits.length := List.length_pos_iff.mpr bv.bits_ne_nil
  unfold BitVecRef.width at hlen
  refine bytesToU32sBe_eq (fun hnil => ?_) (by omega)
  rw [hnil, List.length_nil] at hbytes
  omega

/-! ### Binary strings -/

lemma and_shiftLeft_ne_zero {entry : UInt32} {i : Nat} (hi : i < 32) :
    entry &&& (1 <<< UInt32.ofNat i) ≠ 0 ↔ entry.toNat.testBit i = true := by
  rw [Ne, ← UInt32.toNat_inj, UInt32.toNat_and, toNat_one_shiftLeft hi]
  show entry.toNat &&& 2 ^ i ≠ 0 ↔ _
  rw [Nat.and_two_pow]
  cases entry.toNat.testBit i <;> simp

lemma uint32ToBinStr_eq {entry : UInt32} (hlen : bits.length ≤ 32)
    (hall : bits.all Bit.isTwoState = true) (hentry : entry.toNat = Bit.number bits) :
    uint32ToBinStr bits.length entry = bits.map Bit.char := by
  have hbits := Numeral.testBit_value fun d (hd : d ∈ bits.map Bit.toNat) => toNat_lt_two hd
  have hchar : (bits.map Bit.toNat).map (fun d => if d = 1 then '1' else '0') =
      bits.map Bit.char := by
    rw [List.map_map]
    refine List.map_congr_left fun bit hmem => ?_
    have htwo := List.all_eq_true.mp hall bit hmem
    cases bit with
    | zero | one => rfl
    | x | z => simp [Bit.isTwoState] at htwo
  rw [← hchar, ← hbits, List.map_map, List.length_map, uint32ToBinStr]
  refine List.map_congr_left fun i hi => ?_
  have hi : i < 32 := by
    rw [List.mem_reverse, List.mem_range] at hi
    omega
  simp only [and_shiftLeft_ne_zero hi, hentry, Bit.number, Function.comp_apply]
  cases (Numeral.value 2 (bits.map Bit.toNat)).testBit i <;> rfl

/-! ### Both paths -/

/-- What a backend finds for a signal at an index of the waveform: with wellen the width of the
signal and a value, unless the first value comes later. -/
inductive Found
  | wellen (bitSize : Nat) (value : Option BitVecRef)
  | fsdb (retVC : List Bit)

namespace Found

def bitSize : Found → Nat
  | .wellen bitSize _ => bitSize
  | .fsdb retVC => retVC.length

/-- The entry that the JIT worker makes of it. -/
def optValue : Found → UInt32
  | .wellen _ value => wellenGetIntValue value
  | .fsdb retVC => fsdbOptValue retVC

/-- The slow path of `vpi_get_value`. -/
def read : Found → Format → Value
  | .wellen _ value => wellenVpiGetValueFromIndex value
  | .fsdb retVC => readFromFSDB retVC

/-- A 2-state value of the width of the signal. -/
def IsTwoState : Found → Prop
  | .wellen bitSize value => 0 < bitSize ∧
      ∀ bv, value = some bv → bv.width = bitSize ∧ bv.isTwoState = true
  | .fsdb retVC => retVC ≠ [] ∧ retVC.all Bit.isTwoState = true

/-- The strings of both paths are padded alike. -/
def sameDigits : Found → Format → Prop
  | .wellen bitSize (some bv), .vpiHexStrVal => fillsHex bitSize (Bit.number bv.bits)
  | .fsdb retVC, .vpiHexStrVal => fillsHex retVC.length (Bit.number retVC)
  | .wellen bitSize none, .vpiBinStrVal => bitSize = 1
  | _, _ => True

instance (f : Found) (format : Format) : Decidable (f.sameDigits format) := by
  unfold sameDigits
  split <;> infer_instance

end Found

lemma readFromOpt_wellen (format : Format) (hlen : bv.width ≤ 32) (htwo : bv.isTwoState = true) :
    readFromOpt bv.width (bytesLastU32Be bv.beBytes) format = wellenTwoState bv format ↔
      (format = .vpiHexStrVal → fillsHex bv.width (Bit.number bv.bits)) := by
  have hwords := bytesToU32sBe_beBytes hlen
  have hnum := toNat_bytesLastU32Be hlen htwo
  cases format with
  | vpiIntVal | vpiVectorVal | vpiDecStrVal =>
    refine iff_of_true ?_ (fun h => nomatch h)
    simp [readFromOpt, wellenTwoState, hwords, uint32ToDecStr]
  | vpiBinStrVal =>
    refine iff_of_true ?_ (fun h => nomatch h)
    exact congrArg Value.str (uint32ToBinStr_eq hlen htwo hnum)
  | vpiHexStrVal =>
    rw [readFromOpt, wellenTwoState, Value.str.injEq, uint32ToHexStr, hnum]
    have hpos : 0 < bv.width := List.length_pos_iff.mpr bv.bits_ne_nil
    exact ((bitStringToHex_spells bv.bits_ne_nil htwo).eq_toDigits_iff hpos).trans
      (by simp [BitVecRef.width])

lemma readFromOpt_none {bitSize : Nat} :
    readFromOpt bitSize 0 format = wellenVpiGetValueFromIndex none format ↔
      (format = .vpiBinStrVal → bitSize = 1) := by
  cases format with
  | vpiIntVal | vpiVectorVal | vpiHexStrVal | vpiDecStrVal =>
    exact iff_of_true rfl (fun h => nomatch h)
  | vpiBinStrVal =>
    rw [readFromOpt, wellenVpiGetValueFromIndex, Value.str.injEq, uint32ToBinStr]
    constructor
    · intro h _
      simpa using congrArg List.length h
    · intro h
      rw [h rfl]
      decide

lemma readFromOpt_fsdb (hne : retVC ≠ []) (hlen : retVC.length ≤ 32)
    (hall : retVC.all Bit.isTwoState = true) :
    readFromOpt retVC.length (fsdbOptValue retVC) format = readFromFSDB retVC format ↔
      (format = .vpiHexStrVal → fillsHex retVC.length (Bit.number retVC)) := by
  have hnum := toNat_fsdbSum_zero hlen
  rw [fsdbOptValue_eq]
  cases format with
  | vpiIntVal => exact iff_of_true rfl (fun h => nomatch h)
  | vpiVectorVal =>
    refine iff_of_true ?_ (fun h => nomatch h)
    rw [readFromOpt, readFromFSDB, fsdbVector_eq hne hlen]
  | vpiDecStrVal =>
    refine iff_of_true ?_ (fun h => nomatch h)
    rw [readFromOpt, readFromFSDB, if_pos hall, uint32ToDecStr, hnum]
  | vpiBinStrVal =>
    refine iff_of_true ?_ (fun h => nomatch h)
    exact congrArg Value.str (uint32ToBinStr_eq hlen hall hnum)
  | vpiHexStrVal =>
    rw [readFromOpt, readFromFSDB, Value.str.injEq, uint32ToHexStr, hnum]
    exact ((fsdbHexStr_spells hall).eq_toDigits_iff (List.length_pos_iff.mpr hne)).trans (by simp)

theorem Found.readFromOpt_iff {f : Found} (hlen : f.bitSize ≤ 32) (htwo : f.IsTwoState) :
    readFromOpt f.bitSize f.optValue format = f.read format ↔ f.sameDigits format := by
  match f with
  | .wellen bitSize none =>
    refine readFromOpt_none.trans ?_
    cases format <;> simp [Found.sameDigits, Found.bitSize]
  | .wellen bitSize (some bv) =>
    obtain ⟨hwidth, htwo⟩ := htwo.2 bv rfl
    have heq := readFromOpt_wellen format (hwidth ▸ hlen) htwo
    simp only [Found.bitSize, Found.optValue, Found.read, wellenGetIntValue,
      wellenVpiGetValueFromIndex, htwo, if_true, ← hwidth]
    refine heq.trans ?_
    cases format <;> simp [Found.sameDigits]
  | .fsdb retVC =>
    refine (readFromOpt_fsdb htwo.1 hlen htwo.2).trans ?_
    cases format <;> simp [Found.sameDigits]

end Verilua.Wave
