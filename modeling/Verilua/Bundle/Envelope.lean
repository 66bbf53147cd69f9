import Verilua.Lib.Codec

/-!
# The envelope of a sealed file

A sealed file is `VLBC`, a version, a nonce, a tag and a ciphertext. The writer puts the five parts
behind one another, and the reader finds them at offsets of its own. The caller in Lua hands over a
buffer; when it is too short it is told the length, makes a buffer of that length and calls again,
and a second seal draws a second nonce. The cipher is a parameter.
-/

namespace Verilua.Bundle

open Codec

abbrev Bytes := List UInt8

/-- An array `[u8; n]`. -/
abbrev Block (n : Nat) := {b : Bytes // b.length = n}

def magic : Bytes := ['V', 'L', 'B', 'C'].map Char.toUInt8

def version : UInt8 := 1

def nonceLen : Nat := 12

def tagLen : Nat := 16

def headerLen : Nat := 4 + 1 + nonceLen + tagLen

abbrev Key := Block 32
abbrev Nonce := Block nonceLen
abbrev Tag := Block tagLen

/-! ### Return codes -/

def ok : Int := 0

def errNoKey : Int := -1

def errArgs : Int := -2

def errBuf : Int := -3

def errFormat : Int := -4

def errAuth : Int := -5

/-! ### The cipher -/

/-- The crate for AES-256-GCM, without associated data. It takes plaintexts up to a length, it gives
back what it took, and it opens a ciphertext only with the tag that belongs to it. -/
structure Aes256Gcm where
  maxLen : Nat
  tag : Key → Nonce → Bytes → Tag
  encrypt : Key → Nonce → Bytes → Option (Tag × Bytes)
  decrypt : Key → Nonce → Bytes → Tag → Option Bytes
  encrypt_isSome {key nonce plain} : plain.length ≤ maxLen → (encrypt key nonce plain).isSome
  encrypt_tag {key nonce plain t body} :
    encrypt key nonce plain = some (t, body) → t = tag key nonce body
  encrypt_length {key nonce plain t body} :
    encrypt key nonce plain = some (t, body) → body.length = plain.length
  decrypt_encrypt {key nonce plain t body} :
    encrypt key nonce plain = some (t, body) → decrypt key nonce body t = some plain
  decrypt_tag {key nonce body t plain} :
    decrypt key nonce body t = some plain → t = tag key nonce body

variable {σ : Type} (cipher : Aes256Gcm) (key : Key) (fill : σ → Nonce × σ)

/-! ### Writing and reading the envelope -/

/-- The parts in the order in which they are written. -/
def envelope (nonce : Nonce) (tag : Tag) (body : Bytes) : Bytes :=
  magic ++ [version] ++ nonce.1 ++ tag.1 ++ body

/-- `fill` draws a nonce from the state of the generator; the `expect` is a panic. -/
def sealWithKey (plain : Bytes) (s : σ) : Outcome (Bytes × σ) :=
  let (nonce, s) := fill s
  match cipher.encrypt key nonce plain with
  | none => .panic
  | some (tag, body) => .value (envelope nonce tag body, s)

/-- `from_slice` panics on another length. -/
def fromSlice (n : Nat) (b : Bytes) : Outcome (Block n) :=
  if h : b.length = n then .value ⟨b, h⟩ else .panic

/-- `blob[i]`. -/
def byteAt (blob : Bytes) (i : Nat) : Outcome UInt8 :=
  match blob[i]? with
  | some b => .value b
  | none => .panic

def unsealWithKey (blob : Bytes) : Outcome (Except Int Bytes) :=
  if blob.length < headerLen then .value (.error errFormat)
  else do
    let start ← index blob 0 4
    if start ≠ magic then .value (.error errFormat)
    else do
      let ver ← byteAt blob 4
      if ver ≠ version then .value (.error errFormat)
      else do
        let nonce ← index blob 5 (5 + nonceLen)
        let tag ← index blob (5 + nonceLen) (5 + nonceLen + tagLen)
        let body ← index blob headerLen blob.length
        let nonce ← fromSlice nonceLen nonce
        let tag ← fromSlice tagLen tag
        match cipher.decrypt key nonce body tag with
        | some plain => .value (.ok plain)
        | none => .value (.error errAuth)

/-! ### The C functions -/

/-- Where a C function writes: the buffer and the cell for the length. A null pointer is `none`. -/
structure Out where
  output : Option Bytes
  outputLen : Option Nat

def copyOut (src : Bytes) (outputCap : Nat) (out : Out) : Int × Out :=
  match out.outputLen with
  | none => (errArgs, out)
  | some _ =>
    match out.output with
    | none => (errArgs, { out with outputLen := some src.length })
    | some buf =>
      if outputCap < src.length then (errBuf, { out with outputLen := some src.length })
      else (ok, { output := some (src ++ buf.drop src.length), outputLen := some src.length })

/-- A C function: the input, its length, the size of the buffer and where to write. -/
abbrev Crypt (σ : Type) := Option Bytes → Nat → Nat → Out → σ → Outcome ((Int × Out) × σ)

def vlBundleSeal (compiledKey : Option Key) : Crypt σ := fun input inputLen outputCap out s =>
  match compiledKey with
  | none => .value ((errNoKey, out), s)
  | some key =>
    if input.isNone ∧ inputLen ≠ 0 then .value ((errArgs, out), s)
    else do
      let plain := if inputLen = 0 then [] else (input.getD []).take inputLen
      let (blob, s) ← sealWithKey cipher key fill plain s
      .value (copyOut blob outputCap out, s)

def vlBundleUnseal (compiledKey : Option Key) : Crypt σ := fun input inputLen outputCap out s =>
  match compiledKey with
  | none => .value ((errNoKey, out), s)
  | some key =>
    if input.isNone ∨ inputLen = 0 then .value ((errArgs, out), s)
    else do
      let r ← unsealWithKey cipher key ((input.getD []).take inputLen)
      match r with
      | .ok plain => .value (copyOut plain outputCap out, s)
      | .error code => .value ((code, out), s)

/-! ### The calls from Lua -/

def why (rc : Int) : String :=
  if rc = errNoKey then
    "no compile-time key (set VL_BUNDLE_KEY_HEX when building libverilua)"
  else if rc = errArgs then "invalid arguments"
  else if rc = errBuf then "output buffer too small"
  else if rc = errFormat then "not a compatible VLBC (bad magic or format version)"
  else if rc = errAuth then
    "key mismatch or corrupted blob (this libverilua was built with a different VL_BUNDLE_KEY_HEX)"
  else "failed: " ++ toString rc

/-- A new buffer, and the cell with what it holds. -/
def Out.new (cap n : Nat) : Out where
  output := some (List.replicate cap 0)
  outputLen := some n

/-- `n[0]`, and the first `n[0]` bytes of the buffer. -/
def Out.len (out : Out) : Nat := out.outputLen.getD 0

def Out.string (out : Out) : Bytes := (out.output.getD []).take out.len

/-- `call_crypt` behind the choice of the first capacity. -/
def callWithCap (fn : Crypt σ) (name : String) (blob : Bytes) (cap : Nat) (s : σ) :
    Outcome (Except String Bytes × σ) := do
  let ((rc, out), s) ← fn (some blob) blob.length cap (Out.new cap 0) s
  let ((rc, out), s) ←
    if rc = errBuf then fn (some blob) blob.length out.len (Out.new out.len out.len) s
    else .value ((rc, out), s)
  if rc ≠ ok then .value (.error ("[" ++ name ++ "] " ++ why rc), s)
  else .value (.ok out.string, s)

def callCrypt (fn : Crypt σ) (name : String) (blob : Bytes) (extraCap : Option Nat) (s : σ) :
    Outcome (Except String Bytes × σ) :=
  callWithCap fn name blob (blob.length + extraCap.getD 64) s

def sealBytes (compiledKey : Option Key) (plain : Bytes) (s : σ) :
    Outcome (Except String Bytes × σ) :=
  callCrypt (vlBundleSeal cipher fill compiledKey) "vl_bundle_seal" plain (some 64) s

def unsealBytes (compiledKey : Option Key) (blob : Bytes) (s : σ) :
    Outcome (Except String Bytes × σ) :=
  callCrypt (vlBundleUnseal cipher compiledKey) "vl_bundle_unseal" blob (some 0) s

/-! ### The parts of an envelope -/

variable {cipher key fill} {nonce : Nonce} {tag : Tag} {body blob plain : Bytes} {s s' : σ}

lemma length_magic : magic.length = 4 := rfl

@[simp] lemma length_envelope : (envelope nonce tag body).length = headerLen + body.length := by
  simp only [envelope, List.length_append, length_magic, nonce.2, tag.2, List.length_singleton]
  rfl

lemma envelope_eq :
    envelope nonce tag body = magic ++ (version :: (nonce.1 ++ (tag.1 ++ body))) := by
  simp [envelope]

lemma index_of_append (before part after : Bytes) {i j : Nat} (hi : before.length = i)
    (hj : i + part.length = j) : index (before ++ (part ++ after)) i j = .value part := by
  subst hi hj
  have hin : before.length ≤ before.length + part.length ∧
      before.length + part.length ≤ (before ++ (part ++ after)).length := by
    simp only [List.length_append]
    omega
  rw [index, if_pos hin, List.extract_eq_take_drop]
  simp

lemma fromSlice_block {n : Nat} (b : Block n) : fromSlice n b.1 = .value b := by
  rw [fromSlice, dif_pos b.2]

lemma unsealWithKey_envelope : unsealWithKey cipher key (envelope nonce tag body) =
    .value (match cipher.decrypt key nonce body tag with
      | some plain => .ok plain
      | none => .error errAuth) := by
  have hlen : ¬ (envelope nonce tag body).length < headerLen := by simp
  have hmagic : index (envelope nonce tag body) 0 4 = .value magic := by
    rw [envelope_eq]
    exact index_of_append [] magic _ rfl rfl
  have hversion : byteAt (envelope nonce tag body) 4 = .value version := by
    rw [envelope_eq]
    rfl
  have hnonce : index (envelope nonce tag body) 5 (5 + nonceLen) = .value nonce.1 := by
    rw [envelope_eq]
    exact index_of_append (magic ++ [version]) nonce.1 _ rfl (by rw [nonce.2])
  have htag : index (envelope nonce tag body) (5 + nonceLen) (5 + nonceLen + tagLen) =
      .value tag.1 := by
    have h := index_of_append (i := 5 + nonceLen) (j := 5 + nonceLen + tagLen)
      (magic ++ [version] ++ nonce.1) tag.1 body
      (by simp [length_magic, nonce.2, nonceLen]) (by rw [tag.2])
    simpa [envelope] using h
  have hbody : index (envelope nonce tag body) headerLen (envelope nonce tag body).length =
      .value body := by
    have h := index_of_append (i := headerLen) (j := (envelope nonce tag body).length)
      (magic ++ [version] ++ nonce.1 ++ tag.1) body []
      (by simp [length_magic, nonce.2, tag.2, headerLen, nonceLen, tagLen]) (by simp)
    simpa [envelope] using h
  rw [unsealWithKey, if_neg hlen]
  simp only [hmagic, hversion, hnonce, htag, hbody, fromSlice_block, Outcome.value_bind, ne_eq,
    not_true_eq_false, if_false]
  cases cipher.decrypt key nonce body tag <;> rfl

/-- A blob that is shorter than the header, or that starts with another magic or version. -/
def Malformed (blob : Bytes) : Prop :=
  blob.length < headerLen ∨ blob.take 4 ≠ magic ∨ blob[4]? ≠ some version

lemma unsealWithKey_malformed (h : Malformed blob) :
    unsealWithKey cipher key blob = .value (.error errFormat) := by
  rw [unsealWithKey]
  split
  · rfl
  next hlen =>
    have hlen : 33 ≤ blob.length := Nat.le_of_not_lt hlen
    have hstart : index blob 0 4 = .value (blob.take 4) := by
      rw [index, if_pos (by omega)]
      simp [List.extract_eq_take_drop]
    rw [hstart, Outcome.value_bind]
    split
    · rfl
    next hmagic =>
      have hver : byteAt blob 4 = .value blob[4] := by
        rw [byteAt, List.getElem?_eq_getElem (by omega)]
      rw [hver, Outcome.value_bind]
      have hne : blob[4] ≠ version := by
        intro hv
        rcases h with h | h | h
        · exact absurd h (Nat.not_lt.mpr hlen)
        · exact hmagic h
        · exact h (by rw [List.getElem?_eq_getElem (by omega), hv])
      rw [if_pos hne]

lemma exists_envelope (h : ¬ Malformed blob) :
    ∃ nonce tag body, blob = envelope nonce tag body := by
  simp only [Malformed, not_or, ne_eq, not_not, Nat.not_lt] at h
  obtain ⟨hlen, hmagic, hver⟩ := h
  have hlen : 33 ≤ blob.length := hlen
  refine ⟨⟨(blob.drop 5).take 12, by simp [nonceLen]; omega⟩,
    ⟨(blob.drop 17).take 16, by simp [tagLen]; omega⟩, blob.drop 33, ?_⟩
  have hdrop : blob.drop 4 = version :: blob.drop 5 := by
    rw [List.drop_eq_getElem_cons (by omega)]
    rw [List.getElem?_eq_getElem (by omega)] at hver
    rw [Option.some_inj.mp hver]
  have hrest : blob.drop 5 =
      (blob.drop 5).take 12 ++ ((blob.drop 17).take 16 ++ blob.drop 33) := by
    have h17 : blob.drop 17 = (blob.drop 5).drop 12 := by rw [List.drop_drop]
    have h33 : blob.drop 33 = (blob.drop 17).drop 16 := by rw [List.drop_drop]
    rw [h33, List.take_append_drop, h17, List.take_append_drop]
  calc blob = blob.take 4 ++ blob.drop 4 := (List.take_append_drop 4 blob).symm
    _ = magic ++ (version :: blob.drop 5) := by rw [hmagic, hdrop]
    _ = envelope _ _ _ := by rw [envelope_eq, ← hrest]

lemma unsealWithKey_total : ∃ r, unsealWithKey cipher key blob = .value r := by
  by_cases h : Malformed blob
  · exact ⟨_, unsealWithKey_malformed h⟩
  · obtain ⟨nonce, tag, body, rfl⟩ := exists_envelope h
    exact ⟨_, unsealWithKey_envelope⟩

lemma envelope_of_unseal (h : unsealWithKey cipher key blob = .value (.ok plain)) :
    ∃ nonce body, blob = envelope nonce (cipher.tag key nonce body) body := by
  by_cases hm : Malformed blob
  · rw [unsealWithKey_malformed hm] at h
    cases h
  · obtain ⟨nonce, tag, body, rfl⟩ := exists_envelope hm
    rw [unsealWithKey_envelope] at h
    cases hd : cipher.decrypt key nonce body tag with
    | none =>
      rw [hd] at h
      cases h
    | some p =>
      rw [cipher.decrypt_tag hd]
      exact ⟨nonce, body, rfl⟩

lemma unseal_of_seal (h : sealWithKey cipher key fill plain s = .value (blob, s')) :
    unsealWithKey cipher key blob = .value (.ok plain) := by
  simp only [sealWithKey] at h
  split at h
  · cases h
  next tag body hen =>
    cases h
    rw [unsealWithKey_envelope, cipher.decrypt_encrypt hen]

lemma length_of_seal (h : sealWithKey cipher key fill plain s = .value (blob, s')) :
    blob.length = headerLen + plain.length := by
  simp only [sealWithKey] at h
  split at h
  · cases h
  next tag body hen =>
    cases h
    rw [length_envelope, cipher.encrypt_length hen]

lemma exists_seal (h : plain.length ≤ cipher.maxLen) (s : σ) :
    ∃ blob s', sealWithKey cipher key fill plain s = .value (blob, s') := by
  have hsome : (cipher.encrypt key (fill s).1 plain).isSome := cipher.encrypt_isSome h
  obtain ⟨⟨tag, body⟩, hen⟩ := Option.isSome_iff_exists.mp hsome
  refine ⟨envelope (fill s).1 tag body, (fill s).2, ?_⟩
  simp [sealWithKey, hen]

/-! ### The buffer -/

lemma copyOut_new (src : Bytes) (cap n : Nat) : copyOut src cap (Out.new cap n) =
    if cap < src.length then
      (errBuf, { output := some (List.replicate cap 0), outputLen := some src.length })
    else
      (ok, { output := some (src ++ List.replicate (cap - src.length) 0),
             outputLen := some src.length }) := by
  simp [copyOut, Out.new]

/-- The function writes what `write` makes; the input is the blob. -/
def Writes (fn : Crypt σ) (blob : Bytes) (write : σ → Outcome (Bytes × σ)) : Prop :=
  ∀ cap out s, fn (some blob) blob.length cap out s =
    write s >>= fun x => .value (copyOut x.1 cap out, x.2)

/-- All that the function writes has the one length that the first call reports. -/
def OfLength (n : Nat) (write : σ → Outcome (Bytes × σ)) : Prop :=
  ∀ s out s', write s = .value (out, s') → out.length = n

lemma exists_write_of_callWithCap {fn : Crypt σ} {write : σ → Outcome (Bytes × σ)} {n cap : Nat}
    {name : String} {out : Bytes} (hfn : Writes fn blob write) (hn : OfLength n write)
    (h : callWithCap fn name blob cap s = .value (.ok out, s')) :
    ∃ s₁, write s₁ = .value (out, s') := by
  rw [callWithCap, hfn] at h
  cases hw : write s with
  | panic => simp [hw] at h
  | fail => simp [hw] at h
  | value x =>
    simp only [hw, Outcome.value_bind, copyOut_new] at h
    split at h
    next hshort =>
      -- the second buffer has the length of the first output, which is that of the second one
      simp only [if_true, Out.len, Option.getD_some, hfn _ _ _] at h
      cases hw' : write x.2 with
      | panic => simp [hw'] at h
      | fail => simp [hw'] at h
      | value y =>
        have hfits : ¬ x.1.length < y.1.length := by
          rw [hn s x.1 x.2 hw, hn x.2 y.1 y.2 hw']
          exact lt_irrefl n
        simp [hw', copyOut_new, hfits, Out.string, Out.len] at h
        exact ⟨x.2, by rw [hw', ← h.1, ← h.2]⟩
    next hlong =>
      simp [ok, errBuf, Out.string, Out.len] at h
      exact ⟨s, by rw [hw, ← h.1, ← h.2]⟩

lemma exists_callWithCap {fn : Crypt σ} {write : σ → Outcome (Bytes × σ)} {n cap : Nat}
    {name : String} (hfn : Writes fn blob write) (hn : OfLength n write)
    (hwrite : ∀ s, ∃ out s', write s = .value (out, s')) (s : σ) :
    ∃ out s', callWithCap fn name blob cap s = .value (.ok out, s') := by
  obtain ⟨out, s₁, hw⟩ := hwrite s
  by_cases hshort : cap < out.length
  · obtain ⟨out', s₂, hw'⟩ := hwrite s₁
    have hfits : ¬ out.length < out'.length := by
      rw [hn s out s₁ hw, hn s₁ out' s₂ hw']
      exact lt_irrefl n
    refine ⟨out', s₂, ?_⟩
    simp [callWithCap, hfn _ _ _, hw, hw', copyOut_new, hshort, hfits, Out.len, Out.string]
  · refine ⟨out, s₁, ?_⟩
    simp [callWithCap, hfn _ _ _, hw, copyOut_new, hshort, Out.len, Out.string, ok, errBuf]

lemma writes_seal : Writes (vlBundleSeal cipher fill (some key)) plain
    (sealWithKey cipher key fill plain) := by
  intro cap out s
  have hplain : (if plain = [] then [] else plain) = plain := by
    split
    next h => exact h.symm
    next => rfl
  simp [vlBundleSeal, hplain]

lemma writes_unseal (hne : blob ≠ []) (h : unsealWithKey cipher key blob = .value (.ok plain)) :
    Writes (σ := σ) (vlBundleUnseal cipher (some key)) blob fun s => .value (plain, s) := by
  intro cap out s
  simp [vlBundleUnseal, hne, h]

lemma unseal_of_callWithCap {cap cap' : Nat} {name name' : String}
    (h : callWithCap (vlBundleSeal cipher fill (some key)) name plain cap s =
      .value (.ok blob, s')) :
    callWithCap (vlBundleUnseal cipher (some key)) name' blob cap' () =
      .value (.ok plain, ()) := by
  obtain ⟨s₁, hs⟩ := exists_write_of_callWithCap writes_seal
    (fun _ _ _ h => length_of_seal h) h
  have hne : blob ≠ [] := by
    intro hnil
    have hlen := length_of_seal hs
    have hheader : headerLen = 33 := rfl
    rw [hnil, List.length_nil] at hlen
    omega
  have hwrites := writes_unseal (σ := Unit) hne (unseal_of_seal hs)
  have hlength : OfLength plain.length fun t : Unit => .value (plain, t) := by
    intro t out t' h
    cases h
    rfl
  have hreturns : ∃ out t', callWithCap (vlBundleUnseal cipher (some key)) name' blob cap' () =
      .value (.ok out, t') :=
    exists_callWithCap hwrites hlength (fun t => ⟨plain, t, rfl⟩) ()
  obtain ⟨out, t', hout⟩ := hreturns
  obtain ⟨t₁, ht⟩ := exists_write_of_callWithCap hwrites hlength hout
  cases ht
  exact hout

/-! ### The round trip -/

/-- Sealing returns, unsealing what it returned gives the plaintext back, and reading is total: a
blob with another header is a format error, and any other gives a plaintext only with its tag. -/
theorem envelope_roundTrip (cipher : Aes256Gcm) (key : Key) :
    (∀ (fill : σ → Nonce × σ) (s : σ) (plain : Bytes), plain.length ≤ cipher.maxLen →
      (∃ blob s', sealBytes cipher fill (some key) plain s = .value (.ok blob, s') ∧
        unsealBytes cipher (some key) blob () = .value (.ok plain, ())) ∧
      ∀ cap name, ∃ blob s', callWithCap (vlBundleSeal cipher fill (some key)) name plain cap s =
        .value (.ok blob, s')) ∧
    (∀ (fill : σ → Nonce × σ) (s s' : σ) (plain blob : Bytes) (cap cap' : Nat)
        (name name' : String),
      callWithCap (vlBundleSeal cipher fill (some key)) name plain cap s =
        .value (.ok blob, s') →
      callWithCap (vlBundleUnseal cipher (some key)) name' blob cap' () =
        .value (.ok plain, ())) ∧
    (∀ blob, ∃ r, unsealWithKey cipher key blob = .value r) ∧
    (∀ blob, Malformed blob → unsealWithKey cipher key blob = .value (.error errFormat)) ∧
    ∀ blob plain, unsealWithKey cipher key blob = .value (.ok plain) →
      ∃ nonce body, blob = envelope nonce (cipher.tag key nonce body) body := by
  have hreturns : ∀ (fill : σ → Nonce × σ) (s : σ) (plain : Bytes),
      plain.length ≤ cipher.maxLen → ∀ cap name, ∃ blob s',
        callWithCap (vlBundleSeal cipher fill (some key)) name plain cap s =
          .value (.ok blob, s') := by
    intro fill s plain hlen cap name
    exact exists_callWithCap writes_seal (fun _ _ _ h => length_of_seal h) (exists_seal hlen) s
  refine ⟨fun fill s plain hlen => ⟨?_, hreturns fill s plain hlen⟩, ?_,
    fun _ => unsealWithKey_total, fun _ => unsealWithKey_malformed, fun _ _ => envelope_of_unseal⟩
  · obtain ⟨blob, s', h⟩ := hreturns fill s plain hlen (plain.length + 64) "vl_bundle_seal"
    exact ⟨blob, s', h, unseal_of_callWithCap h⟩
  · intro fill s s' plain blob cap cap' name name' h
    exact unseal_of_callWithCap h

/-! ### A cipher that is known at two plaintexts -/

lemma zipWith_xor_cancel : ∀ plain stream : Bytes, plain.length ≤ stream.length →
    List.zipWith (· ^^^ ·) (List.zipWith (· ^^^ ·) plain stream) stream = plain
  | [], _, _ => rfl
  | p :: plain, [], h => by simp at h
  | p :: plain, k :: stream, h => by
    have ih := zipWith_xor_cancel plain stream (by simpa using h)
    have hp : p ^^^ k ^^^ k = p := by rw [UInt8.xor_assoc, UInt8.xor_self, UInt8.xor_zero]
    rw [List.zipWith_cons_cons, List.zipWith_cons_cons, ih, hp]

/-- The first block of the key stream of the zero key under the zero nonce. -/
def zeroStream (n : Nat) : Bytes :=
  [206, 167, 64, 61, 77, 96, 107, 110, 7, 78, 197, 211, 186, 243, 157, 24] ++
    List.replicate (n - 16) 0

/-- The tag of no ciphertext, and the tag of the first block. -/
def zeroTag (body : Bytes) : Tag :=
  if body = [] then
    ⟨[83, 15, 138, 251, 199, 69, 54, 185, 169, 99, 180, 241, 196, 203, 115, 139], rfl⟩
  else ⟨[208, 209, 200, 167, 153, 153, 107, 240, 38, 91, 152, 181, 212, 138, 185, 25], rfl⟩

def applyStream (b : Bytes) : Bytes := List.zipWith (· ^^^ ·) b (zeroStream b.length)

lemma length_le_zeroStream (n : Nat) : n ≤ (zeroStream n).length := by
  simp [zeroStream]
  omega

@[simp] lemma length_applyStream (b : Bytes) : (applyStream b).length = b.length := by
  rw [applyStream, List.length_zipWith]
  exact min_eq_left (length_le_zeroStream b.length)

@[simp] lemma applyStream_applyStream (b : Bytes) : applyStream (applyStream b) = b := by
  rw [applyStream, length_applyStream]
  exact zipWith_xor_cancel b (zeroStream b.length) (length_le_zeroStream b.length)

def zeroGcm : Aes256Gcm where
  maxLen := 2 ^ 36
  tag _ _ body := zeroTag body
  encrypt _ _ plain :=
    if plain.length ≤ 2 ^ 36 then some (zeroTag (applyStream plain), applyStream plain) else none
  decrypt _ _ body tag := if tag = zeroTag body then some (applyStream body) else none
  encrypt_isSome h := by rw [if_pos h]; rfl
  encrypt_tag h := by
    split at h
    · cases h; rfl
    · cases h
  encrypt_length h := by
    split at h
    · cases h; exact length_applyStream _
    · cases h
  decrypt_encrypt h := by
    split at h
    · cases h; simp
    · cases h
  decrypt_tag h := by
    split at h
    next heq => exact heq
    next => cases h

/-- The zero bytes of the given number. -/
def zeros (n : Nat) : Block n := ⟨List.replicate n 0, List.length_replicate⟩

theorem envelope_roundTrip_zeros :
    (∃ blob s', sealBytes zeroGcm (fun s : Unit => (zeros nonceLen, s)) (some (zeros 32))
        (zeros 16).1 () = .value (.ok blob, s') ∧
      unsealBytes zeroGcm (some (zeros 32)) blob () = .value (.ok (zeros 16).1, ())) ∧
    unsealWithKey zeroGcm (zeros 32) [] = .value (.error errFormat) := by
  have h := envelope_roundTrip (σ := Unit) zeroGcm (zeros 32)
  exact ⟨(h.1 _ () (zeros 16).1 (by decide)).1, h.2.2.2.1 [] (Or.inl (by decide))⟩

end Verilua.Bundle
