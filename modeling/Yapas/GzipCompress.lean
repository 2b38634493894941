import Yapas.Gzip

/-!
# Compressing at once

`GzipCompress`, which compresses a string in one call of `deflate` into a
buffer that is as large as `compressBound` says.

The lengths of the stream are `uInt`s. That the output buffer may be
longer is looked at, and nothing is done then; that the input may be is
not. But the buffer is not shorter than the input, so nothing is dropped:
where `GzipCompress` returns true, all of the input has been compressed,
and where it does not the output string is as it was
(`gzipCompress_spec`).

What zlib does is a parameter. `compressBound` is in the range of a
`size_t`.
-/

namespace Yapas

/-- `deflate` is called once, with `Z_FINISH`: for an input and a room
for the output it has what is written, how much is consumed and what is
returned. -/
structure Zlib where
  compressBound : Nat → Nat
  deflateInit2 : Int
  deflateSetHeader : Int
  deflate : List UInt8 → Nat → List UInt8 × Nat × Int
  deflateEnd : Int

namespace Zlib

def toUInt (n : Nat) : Nat := n % 4294967296

/-- The return value, `dest` and `*dest_length`. -/
def gzipCompressHelper (z : Zlib) (dest : List UInt8) (destLength : Nat) (source : List UInt8) :
    Int × List UInt8 × Nat :=
  let availIn := toUInt source.length
  let availOut := toUInt destLength
  if availOut ≠ destLength then (zBufError, dest, destLength)
  else if z.deflateInit2 ≠ zOk then (z.deflateInit2, dest, destLength)
  else if z.deflateSetHeader ≠ zOk then (z.deflateSetHeader, dest, destLength)
  else
    let (out, _, err) := z.deflate (source.take availIn) availOut
    let dest := out ++ dest.drop out.length
    if err ≠ zStreamEnd then (if err = zOk then zBufError else err, dest, destLength)
    else (z.deflateEnd, dest, out.length)

def resize (v : List UInt8) (n : Nat) : List UInt8 := v.take n ++ List.replicate (n - v.length) 0

/-- The return value and `*output`. -/
def gzipCompress (z : Zlib) (input output : List UInt8) : Bool × List UInt8 :=
  let size := 16 + z.compressBound input.length
  let (err, dest, compressedSize) :=
    z.gzipCompressHelper (List.replicate size 0) size input
  if err ≠ zOk then (false, output) else (true, resize dest compressedSize)

/-- What zlib promises: the bound is not below the length, and at the end
of the stream all of the input has been consumed and what is written is
`Gzip` of it. -/
structure Promises (z : Zlib) (Gzip : List UInt8 → List UInt8 → Prop) : Prop where
  bound : ∀ n, n ≤ z.compressBound n
  streamEnd : ∀ source room out consumed, z.deflate source room = (out, consumed, zStreamEnd) →
    consumed = source.length ∧ out.length ≤ room ∧ Gzip (source.take consumed) out

section Compress

variable {z : Zlib} {Gzip : List UInt8 → List UInt8 → Prop}

theorem toUInt_eq_iff {n : Nat} : toUInt n = n ↔ n < 4294967296 := by
  rw [toUInt]
  omega

/-- An input that is too long for a `uInt` has too large a buffer. -/
theorem take_availIn (hz : z.Promises Gzip) {input : List UInt8}
    (h : 16 + z.compressBound input.length < 4294967296) :
    input.take (toUInt input.length) = input := by
  have hbound := hz.bound input.length
  rw [toUInt_eq_iff.mpr (by omega), List.take_length]

theorem resize_written (out : List UInt8) (n : Nat) :
    resize (out ++ (List.replicate n (0 : UInt8)).drop out.length) out.length = out := by
  rw [resize, List.take_left, List.length_append, Nat.sub_eq_zero_of_le (Nat.le_add_right _ _),
    List.replicate_zero, List.append_nil]

/-- The calls that have to succeed, and the lengths that are in the range
of a `uInt`. -/
structure Succeeds (z : Zlib) (input : List UInt8) : Prop where
  fits : 16 + z.compressBound input.length < 4294967296
  init : z.deflateInit2 = zOk
  setHeader : z.deflateSetHeader = zOk
  streamEnd : (z.deflate input (16 + z.compressBound input.length)).2.2 = zStreamEnd
  deflateEnd : z.deflateEnd = zOk

theorem gzipCompress_succeeds (hz : z.Promises Gzip) {input : List UInt8}
    (h : z.Succeeds input) (output : List UInt8) :
    z.gzipCompress input output
      = (true, (z.deflate input (16 + z.compressBound input.length)).1) := by
  have hroom : toUInt (16 + z.compressBound input.length) = 16 + z.compressBound input.length :=
    toUInt_eq_iff.mpr h.fits
  rw [gzipCompress, gzipCompressHelper, hroom, take_availIn hz h.fits]
  simp only [ne_eq, not_true_eq_false, if_false, h.init, h.setHeader, h.streamEnd, h.deflateEnd,
    resize_written]

theorem gzipCompress_fails (hz : z.Promises Gzip) {input : List UInt8}
    (h : ¬ z.Succeeds input) (output : List UInt8) :
    z.gzipCompress input output = (false, output) := by
  rw [gzipCompress, gzipCompressHelper]
  by_cases hfits : 16 + z.compressBound input.length < 4294967296
  · rw [toUInt_eq_iff.mpr hfits, take_availIn hz hfits, if_neg (not_not_intro rfl)]
    by_cases hinit : z.deflateInit2 = zOk
    · rw [if_neg (not_not_intro hinit)]
      by_cases hheader : z.deflateSetHeader = zOk
      · rw [if_neg (not_not_intro hheader)]
        by_cases hend : (z.deflate input (16 + z.compressBound input.length)).2.2 = zStreamEnd
        · have hdone : z.deflateEnd ≠ zOk := fun hdone => h ⟨hfits, hinit, hheader, hend, hdone⟩
          dsimp only
          rw [if_neg (not_not_intro hend), if_pos hdone]
        · have herr : (if (z.deflate input (16 + z.compressBound input.length)).2.2 = zOk
              then zBufError else (z.deflate input (16 + z.compressBound input.length)).2.2)
              ≠ zOk := by
            split
            · decide
            · assumption
          dsimp only
          rw [if_pos hend]
          exact if_pos herr
      · rw [if_pos hheader]
        exact if_pos hheader
    · rw [if_pos hinit]
      exact if_pos hinit
  · rw [if_pos fun hroom => hfits (toUInt_eq_iff.mp hroom)]
    exact if_pos (by decide)

/-- An input of any size: either all of it has been compressed, or
nothing is handed out. -/
theorem gzipCompress_spec (hz : z.Promises Gzip) (input output : List UInt8) :
    ((z.gzipCompress input output).1 = true ↔ z.Succeeds input)
      ∧ ((z.gzipCompress input output).1 = true → Gzip input (z.gzipCompress input output).2)
      ∧ ((z.gzipCompress input output).1 = false → (z.gzipCompress input output).2 = output) := by
  by_cases h : z.Succeeds input
  · rw [gzipCompress_succeeds hz h]
    refine ⟨iff_of_true rfl h, fun _ => ?_, fun hfalse => Bool.noConfusion hfalse⟩
    obtain ⟨hconsumed, -, hgzip⟩ := hz.streamEnd input (16 + z.compressBound input.length)
      (z.deflate input (16 + z.compressBound input.length)).1
      (z.deflate input (16 + z.compressBound input.length)).2.1
      (by rw [← h.streamEnd])
    rwa [hconsumed, List.take_length] at hgzip
  · rw [gzipCompress_fails hz h]
    exact ⟨iff_of_false Bool.false_ne_true h, fun htrue => Bool.noConfusion htrue, fun _ => rfl⟩

end Compress

/-- The remainder that `crc32` goes on with behind a byte. -/
def crcByte (crc : Nat) (b : UInt8) : Nat :=
  Nat.repeat (fun c => if c % 2 = 1 then (c >>> 1) ^^^ 0xedb88320 else c >>> 1) 8 (crc ^^^ b.toNat)

def crc32 (source : List UInt8) : Nat := source.foldl crcByte 0xffffffff ^^^ 0xffffffff

/-- So many bytes of a number, the lowest first. -/
def littleEndian : Nat → Nat → List UInt8
  | 0, _ => []
  | k + 1, n => UInt8.ofNat n :: littleEndian k (n / 256)

/-- A header, a block that holds the bytes as they are, the checksum and
the length. -/
def stored (source : List UInt8) : List UInt8 :=
  [0x1f, 0x8b, 8, 0, 0, 0, 0, 0, 0, 0] ++ [1] ++ littleEndian 2 source.length
    ++ littleEndian 2 (65535 - source.length) ++ source
    ++ littleEndian 4 (crc32 source) ++ littleEndian 4 source.length

/-- zlib on bytes that cannot be compressed, as many as one block holds. -/
def storedZlib : Zlib where
  compressBound := GzipHelper.zlibBound
  deflateInit2 := zOk
  deflateSetHeader := zOk
  deflate := fun source room =>
    if source.length ≤ 65535 ∧ (stored source).length ≤ room
    then (stored source, source.length, zStreamEnd) else ([], 0, zOk)
  deflateEnd := zOk

theorem storedZlib_promises : storedZlib.Promises fun input out => out = stored input where
  bound n := by
    show n ≤ GzipHelper.zlibBound n
    rw [GzipHelper.zlibBound]
    omega
  streamEnd source room out consumed h := by
    have hdeflate : (if source.length ≤ 65535 ∧ (stored source).length ≤ room
        then (stored source, source.length, zStreamEnd) else ([], 0, zOk))
        = (out, consumed, zStreamEnd) := h
    split at hdeflate
    · rename_i hfits
      obtain ⟨rfl, hrest⟩ := Prod.mk.inj hdeflate
      obtain ⟨rfl, -⟩ := Prod.mk.inj hrest
      exact ⟨rfl, hfits.2, congrArg stored List.take_length.symm⟩
    · exact absurd (Prod.mk.inj (Prod.mk.inj hdeflate).2).2 (by decide)

/-- Forty bytes that do not repeat. -/
def highBytes : List UInt8 := (List.range 40).map fun n => UInt8.ofNat (200 + n)

theorem stored_highBytes : stored highBytes
    = [0x1f, 0x8b, 8, 0, 0, 0, 0, 0, 0, 0, 1, 40, 0, 0xd7, 0xff] ++ highBytes
      ++ [0xa2, 0xd6, 0x55, 0x3e, 40, 0, 0, 0] := by decide +kernel

theorem gzipCompress_spec_stored :
    (storedZlib.gzipCompress highBytes [97]).1 = true
    ∧ (storedZlib.gzipCompress highBytes [97]).2
      = [0x1f, 0x8b, 8, 0, 0, 0, 0, 0, 0, 0, 1, 40, 0, 0xd7, 0xff] ++ highBytes
        ++ [0xa2, 0xd6, 0x55, 0x3e, 40, 0, 0, 0]
    ∧ (storedZlib.gzipCompress (List.replicate 4294967296 0) [97]).1 = false
    ∧ (storedZlib.gzipCompress (List.replicate 4294967296 0) [97]).2 = [97] := by
  obtain ⟨hiff, hgzip, -⟩ := gzipCompress_spec storedZlib_promises highBytes [97]
  obtain ⟨hiff', -, houtput⟩ := gzipCompress_spec storedZlib_promises
    (List.replicate 4294967296 0) [97]
  have htrue := hiff.mpr ⟨by decide, rfl, rfl, by decide +kernel, rfl⟩
  have hfalse : (storedZlib.gzipCompress (List.replicate 4294967296 0) [97]).1 = false := by
    refine Bool.eq_false_iff.mpr fun h => ?_
    have hfits := (hiff'.mp h).fits
    have hbound := storedZlib_promises.bound (List.replicate 4294967296 (0 : UInt8)).length
    rw [List.length_replicate] at hfits hbound
    omega
  exact ⟨htrue, (hgzip htrue).trans stored_highBytes, hfalse, houtput hfalse⟩

end Zlib

end Yapas
