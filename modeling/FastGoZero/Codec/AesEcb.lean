import FastGoZero.Lib.Blocks

/-!
# AES in ECB mode

`EcbEncrypt` pads the plaintext to full blocks and encrypts block after block;
`EcbDecrypt` decrypts block after block and cuts off as many bytes as the last byte says.
The block cipher itself is an assumption: for each key a permutation of the blocks.
-/

namespace FastGoZero.Codec

open Lib List

abbrev Bytes := List UInt8

/-- A `cipher.Block`: on the blocks of its size, encryption and decryption are inverse. -/
structure BlockCipher where
  blockSize : Nat
  encrypt : Bytes → Bytes
  decrypt : Bytes → Bytes
  positive : 0 < blockSize
  length_encrypt : ∀ block, block.length = blockSize → (encrypt block).length = blockSize
  length_decrypt : ∀ block, block.length = blockSize → (decrypt block).length = blockSize
  decrypt_encrypt : ∀ block, block.length = blockSize → decrypt (encrypt block) = block
  encrypt_decrypt : ∀ block, block.length = blockSize → encrypt (decrypt block) = block

/-- The AES cipher of each key, with blocks of 16 bytes. -/
structure Aes where
  cipher : Bytes → BlockCipher
  blockSize : ∀ key, (cipher key).blockSize = 16

inductive Error where
  | keySize (size : Nat)
  | paddingSize
deriving DecidableEq

inductive Panic where
  | indexOutOfRange
deriving DecidableEq

/-- A key that `aes.NewCipher` takes. -/
def ValidKey (key : Bytes) : Prop := key.length = 16 ∨ key.length = 24 ∨ key.length = 32

instance (key : Bytes) : Decidable (ValidKey key) := inferInstanceAs (Decidable (_ ∨ _))

def newCipher (aes : Aes) (key : Bytes) : Except Error BlockCipher :=
  if ValidKey key then .ok (aes.cipher key) else .error (.keySize key.length)

/-- The loop over the blocks of the source: each goes through the cipher to the front of
what is left of the destination. -/
def cryptLoop (size : Nat) (crypt : Bytes → Bytes) : Nat → Bytes → Bytes → Bytes
  | 0, dst, _ => dst
  | passes + 1, dst, src =>
    crypt (src.take size) ++ cryptLoop size crypt passes (dst.drop size) (src.drop size)

/-- What `CryptBlocks` leaves in the destination. If the source is not full blocks or the
destination is too short, it only logs. -/
def cryptBlocks (size : Nat) (crypt : Bytes → Bytes) (dst src : Bytes) : Bytes :=
  if src.length % size ≠ 0 then dst
  else if dst.length < src.length then dst
  else cryptLoop size crypt (src.length / size) dst src

def encryptBlocks (b : BlockCipher) (dst src : Bytes) : Bytes :=
  cryptBlocks b.blockSize b.encrypt dst src

def decryptBlocks (b : BlockCipher) (dst src : Bytes) : Bytes :=
  cryptBlocks b.blockSize b.decrypt dst src

def pkcs5Padding (ciphertext : Bytes) (blockSize : Nat) : Bytes :=
  let padding := blockSize - ciphertext.length % blockSize
  ciphertext ++ List.replicate padding (UInt8.ofNat padding)

def pkcs5Unpadding (src : Bytes) (blockSize : Nat) : Except Panic (Except Error Bytes) :=
  match src.getLast? with
  | none => .error .indexOutOfRange
  | some last =>
    let unpadding := last.toNat
    if src.length ≤ unpadding ∨ blockSize < unpadding then .ok (.error .paddingSize)
    else .ok (.ok (src.take (src.length - unpadding)))

def ecbEncrypt (aes : Aes) (key src : Bytes) : Except Error Bytes :=
  match newCipher aes key with
  | .error err => .error err
  | .ok block =>
    let padded := pkcs5Padding src block.blockSize
    .ok (encryptBlocks block (List.replicate padded.length 0) padded)

def ecbDecrypt (aes : Aes) (key src : Bytes) : Except Panic (Except Error Bytes) :=
  match newCipher aes key with
  | .error err => .ok (.error err)
  | .ok block =>
    pkcs5Unpadding (decryptBlocks block (List.replicate src.length 0) src) block.blockSize

theorem cryptLoop_eq (size : Nat) (crypt : Bytes → Bytes) (passes : Nat) (dst src : Bytes) :
    cryptLoop size crypt passes dst src =
      mapBlocks size crypt passes src ++ dst.drop (passes * size) := by
  induction passes generalizing dst src with
  | zero => simp [cryptLoop, mapBlocks]
  | succ passes ih =>
    rw [cryptLoop, mapBlocks, ih, drop_drop, append_assoc, Nat.succ_mul, Nat.add_comm size]

variable {src : Bytes} {size count : Nat}

/-- A destination of the length of the source is overwritten from end to end. -/
theorem cryptBlocks_full (positive : 0 < size) (crypt : Bytes → Bytes)
    (full : src.length = count * size) :
    cryptBlocks size crypt (replicate src.length 0) src = mapBlocks size crypt count src := by
  have blocks : src.length % size = 0 := by rw [full, Nat.mul_mod_left]
  have passes : src.length / size = count := by rw [full, Nat.mul_div_cancel _ positive]
  rw [cryptBlocks, if_neg (by simpa using blocks), if_neg (by simp), cryptLoop_eq, passes, full]
  simp

/-- Without full blocks the destination keeps its zeros. -/
theorem cryptBlocks_notFull (crypt : Bytes → Bytes) (broken : src.length % size ≠ 0) :
    cryptBlocks size crypt (replicate src.length 0) src = replicate src.length 0 :=
  if_pos broken

/-- Padding fills up the last block with its own length. -/
structure Padded (src padded : Bytes) (size : Nat) (pad : UInt8) : Prop where
  nonzero : 0 < pad.toNat
  within : pad.toNat ≤ size
  content : padded = src ++ List.replicate pad.toNat pad
  last : padded.getLast? = some pad
  full : padded.length = (src.length / size + 1) * size

theorem exists_padded (src : Bytes) (positive : 0 < size) (small : size < 256) :
    ∃ pad, Padded src (pkcs5Padding src size) size pad := by
  have inside := Nat.mod_lt src.length positive
  have whole := Nat.div_add_mod src.length size
  have counted : (UInt8.ofNat (size - src.length % size)).toNat = size - src.length % size := by
    rw [UInt8.toNat_ofNat']
    exact Nat.mod_eq_of_lt (by omega)
  have nonzero : size - src.length % size ≠ 0 := by omega
  refine ⟨UInt8.ofNat (size - src.length % size), ?_, ?_, ?_, ?_, ?_⟩
  · omega
  · omega
  · rw [counted, pkcs5Padding]
  · rw [pkcs5Padding, getLast?_append_of_ne_nil _ (by simpa using nonzero),
      getLast?_replicate, if_neg nonzero]
  · simp only [pkcs5Padding, length_append, length_replicate]
    rw [Nat.add_mul, Nat.mul_comm (src.length / size), Nat.one_mul]
    omega

/-- What was padded and is not empty is found again. -/
theorem pkcs5Unpadding_padding (src : Bytes) (positive : 0 < size) (small : size < 256) :
    pkcs5Unpadding (pkcs5Padding src size) size =
      .ok (if src = [] then .error .paddingSize else .ok src) := by
  obtain ⟨pad, padded⟩ := exists_padded src positive small
  have within := padded.within
  rw [pkcs5Unpadding, padded.last]
  simp only [padded.content, length_append, length_replicate]
  cases src with
  | nil => simp
  | cons first rest =>
    rw [if_neg (by simp only [length_cons]; omega), Nat.add_sub_cancel, take_left]
    simp

/-- On an empty source the index runs out of range; otherwise the last byte decides. -/
theorem pkcs5Unpadding_spec (src : Bytes) (size : Nat) :
    (∃ err, pkcs5Unpadding src size = .ok (.error err)) ↔
      ∃ last ∈ src.getLast?, src.length ≤ last.toNat ∨ size < last.toNat := by
  rw [pkcs5Unpadding]
  cases src.getLast? with
  | none => simp
  | some last =>
    simp only [Option.mem_some_iff, exists_eq_left']
    split
    · rename_i refused
      exact iff_of_true ⟨_, rfl⟩ refused
    · rename_i accepted
      exact iff_of_false (by simp) accepted

section

variable (aes : Aes) {key : Bytes} (valid : ValidKey key)

include valid

theorem ecbEncrypt_eq (src : Bytes) :
    ecbEncrypt aes key src =
      .ok (mapBlocks 16 (aes.cipher key).encrypt (src.length / 16 + 1) (pkcs5Padding src 16)) := by
  obtain ⟨_, padded⟩ := exists_padded src (by decide : 0 < 16) (by decide)
  simp only [ecbEncrypt, newCipher, if_pos valid, encryptBlocks, aes.blockSize,
    cryptBlocks_full (by decide : 0 < 16) _ padded.full]

theorem ecbDecrypt_full (full : src.length = count * 16) : ecbDecrypt aes key src =
      pkcs5Unpadding (mapBlocks 16 (aes.cipher key).decrypt count src) 16 := by
  simp only [ecbDecrypt, newCipher, if_pos valid, decryptBlocks, aes.blockSize,
    cryptBlocks_full (by decide : 0 < 16) _ full]

theorem ecbDecrypt_notFull (broken : src.length % 16 ≠ 0) :
    ecbDecrypt aes key src = pkcs5Unpadding (replicate src.length 0) 16 := by
  simp only [ecbDecrypt, newCipher, if_pos valid, decryptBlocks, aes.blockSize,
    cryptBlocks_notFull _ broken]

omit valid in
theorem encrypt_keepsSize : KeepsSize 16 (aes.cipher key).encrypt := by
  intro block
  rw [← aes.blockSize key]
  exact (aes.cipher key).length_encrypt block

omit valid in
theorem decrypt_keepsSize : KeepsSize 16 (aes.cipher key).decrypt := by
  intro block
  rw [← aes.blockSize key]
  exact (aes.cipher key).length_decrypt block

omit valid in
theorem decrypt_encrypt (block : Bytes) (full : block.length = 16) :
    (aes.cipher key).decrypt ((aes.cipher key).encrypt block) = block :=
  (aes.cipher key).decrypt_encrypt block (full.trans (aes.blockSize key).symm)

/-- Decryption undoes encryption before it looks at the padding. -/
theorem ecbDecrypt_encrypted (src : Bytes) :
    ecbDecrypt aes key (mapBlocks 16 (aes.cipher key).encrypt (src.length / 16 + 1)
      (pkcs5Padding src 16)) = pkcs5Unpadding (pkcs5Padding src 16) 16 := by
  obtain ⟨_, padded⟩ := exists_padded src (by decide : 0 < 16) (by decide)
  rw [ecbDecrypt_full aes valid (length_mapBlocks (encrypt_keepsSize aes) padded.full),
    mapBlocks_leftInverse (encrypt_keepsSize aes) (decrypt_encrypt aes) padded.full]

end

/-- A plaintext is found again exactly if it is not empty. -/
theorem ecbDecrypt_ecbEncrypt_iff (aes : Aes) (key plaintext : Bytes) (valid : ValidKey key) :
    (∃ crypted, ecbEncrypt aes key plaintext = .ok crypted ∧
      ecbDecrypt aes key crypted = .ok (.ok plaintext)) ↔ plaintext ≠ [] := by
  rw [ecbEncrypt_eq aes valid]
  simp only [Except.ok.injEq, exists_eq_left', ecbDecrypt_encrypted aes valid,
    pkcs5Unpadding_padding plaintext (by decide : 0 < 16) (by decide)]
  cases plaintext with
  | nil | cons first rest => simp

/-- The cipher that leaves every block as it is. -/
def identity : Aes where
  cipher _ := ⟨16, id, id, by decide, fun _ => id, fun _ => id, fun _ _ => rfl, fun _ _ => rfl⟩
  blockSize _ := rfl

theorem ecbDecrypt_ecbEncrypt_short :
    ∃ crypted, ecbEncrypt identity (List.replicate 16 0) [1, 2, 3] = .ok crypted ∧
      ecbDecrypt identity (List.replicate 16 0) crypted = .ok (.ok [1, 2, 3]) :=
  (ecbDecrypt_ecbEncrypt_iff identity (List.replicate 16 0) [1, 2, 3] (by decide)).mpr (by decide)

/-- The padding of the empty plaintext is as long as the message. -/
theorem ecbDecrypt_ecbEncrypt_empty :
    ∃ crypted, ecbEncrypt identity (List.replicate 16 0) [] = .ok crypted ∧
      ecbDecrypt identity (List.replicate 16 0) crypted = .ok (.error .paddingSize) := by
  refine ⟨List.replicate 16 16, ?_, ?_⟩
  · decide
  · decide

/-- The bytes that `EcbDecrypt` refuses: full blocks of which the last decrypts to a last byte
that is more than a block, or no less than the whole. -/
def Refused (aes : Aes) (key src : Bytes) : Prop :=
  src ≠ [] ∧ src.length % 16 = 0 ∧
    ∃ last ∈ ((aes.cipher key).decrypt (src.drop (src.length - 16))).getLast?,
      src.length ≤ last.toNat ∨ 16 < last.toNat

/-- Decryption returns an error exactly on what it refuses: it panics on the empty source,
returns zeros for broken blocks, and looks at no byte of the padding but the last. -/
theorem ecbDecrypt_error_iff (aes : Aes) (key src : Bytes) (valid : ValidKey key) :
    (∃ err, ecbDecrypt aes key src = .ok (.error err)) ↔ Refused aes key src := by
  by_cases broken : src.length % 16 = 0
  · obtain ⟨count, full⟩ := Nat.dvd_of_mod_eq_zero broken
    rw [Nat.mul_comm] at full
    rw [ecbDecrypt_full aes valid full, pkcs5Unpadding_spec,
      length_mapBlocks (decrypt_keepsSize aes) full, ← full]
    cases count with
    | zero =>
      have empty : src = [] := length_eq_zero_iff.mp (by simpa using full)
      simp [empty, mapBlocks, Refused]
    | succ count =>
      have nonempty : src ≠ [] := by
        rintro rfl
        simp at full
      have front : src.length - 16 = count * 16 := by omega
      rw [getLast?_mapBlocks (by decide) (decrypt_keepsSize aes) full, ← front]
      simp [Refused, nonempty, broken]
  · have nonempty : src.length ≠ 0 := by
      intro empty
      simp [empty] at broken
    rw [ecbDecrypt_notFull aes valid broken, pkcs5Unpadding_spec]
    simp [Refused, broken, getLast?_replicate, nonempty]

/-- What encryption gives is not empty, is full blocks and has a last byte of padding. -/
theorem ecbEncrypt_wellFormed {aes : Aes} {key plaintext : Bytes} (valid : ValidKey key)
    (encrypted : ecbEncrypt aes key plaintext = .ok src) : src ≠ [] ∧ src.length % 16 = 0 ∧
      0 ∉ ((aes.cipher key).decrypt (src.drop (src.length - 16))).getLast? := by
  obtain ⟨pad, padded⟩ := exists_padded plaintext (by decide : 0 < 16) (by decide)
  rw [ecbEncrypt_eq aes valid, Except.ok.injEq] at encrypted
  have length : src.length = (plaintext.length / 16 + 1) * 16 :=
    encrypted ▸ length_mapBlocks (encrypt_keepsSize aes) padded.full
  have undone : mapBlocks 16 (aes.cipher key).decrypt (plaintext.length / 16 + 1) src =
      pkcs5Padding plaintext 16 :=
    encrypted ▸ mapBlocks_leftInverse (encrypt_keepsSize aes) (decrypt_encrypt aes) padded.full
  have front : src.length - 16 = plaintext.length / 16 * 16 := by omega
  refine ⟨?_, by omega, ?_⟩
  · rintro rfl
    simp at length
  · rw [front, ← getLast?_mapBlocks (by decide) (decrypt_keepsSize aes) length, undone, padded.last]
    intro isZero
    have nonzero := padded.nonzero
    rw [Option.some.inj isZero] at nonzero
    exact absurd nonzero (by decide)

theorem ecbDecrypt_error_twoBlocks :
    ∃ err, ecbDecrypt identity (List.replicate 16 0) (List.replicate 32 17) = .ok (.error err) :=
  (ecbDecrypt_error_iff identity (List.replicate 16 0) (List.replicate 32 17) (by decide)).mpr
    ⟨by decide, by decide, 17, by decide, by decide⟩

/-- None of these is the output of an encryption: the empty source, a broken block, and a
block with a zero for its padding. -/
theorem ecbDecrypt_accepts_malformed :
    let key : Bytes := List.replicate 16 0
    let block : Bytes := List.replicate 16 0
    (∀ plaintext, ecbEncrypt identity key plaintext ≠ .ok []) ∧
      ecbDecrypt identity key [] = .error .indexOutOfRange ∧
    (∀ plaintext, ecbEncrypt identity key plaintext ≠ .ok [7]) ∧
      ecbDecrypt identity key [7] = .ok (.ok [0]) ∧
    (∀ plaintext, ecbEncrypt identity key plaintext ≠ .ok block) ∧
      ecbDecrypt identity key block = .ok (.ok block) := by
  intro key block
  have valid : ValidKey key := by decide
  refine ⟨?_, by decide, ?_, by decide, ?_, by decide⟩
  · intro plaintext encrypted
    exact (ecbEncrypt_wellFormed valid encrypted).1 rfl
  · intro plaintext encrypted
    exact absurd (ecbEncrypt_wellFormed valid encrypted).2.1 (by decide)
  · intro plaintext encrypted
    exact (ecbEncrypt_wellFormed valid encrypted).2.2 (by decide)

end FastGoZero.Codec
