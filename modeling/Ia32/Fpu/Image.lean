import Ia32.Fpu.State

/-!
# The saved image

The state of the floating-point unit is saved in 108 bytes: seven double words
for the control words and pointers, then the eight registers of ten bytes each,
in the order of their numbers.
-/

namespace Ia32.Fpu

/-- The size of the image in bytes. -/
def imageSize : Nat := 108

/-- The double words before the registers. -/
def imageHeader (f : Fpu) : List Dword :=
  [f.control.setWidth 32,
    f.statusWord.setWidth 32,
    f.tags.setWidth 32,
    f.ipOffset,
    f.ipSelector.setWidth 32 ||| ((f.opcode.setWidth 32 &&& 0x7FF) <<< 16),
    f.dpOffset,
    f.dpSelector.setWidth 32]

/-- The image of a state. -/
def saveImage (f : Fpu) : List Byte :=
  f.imageHeader.flatMap (fun d => bytesOf 4 d.toNat) ++ f.regs.toList.flatMap Extended.toBytes

/-- Double word `i` of an image. -/
def imageDword (image : List Byte) (i : Nat) : Dword :=
  BitVec.ofNat 32 (littleEndian ((image.drop (4 * i)).take 4))

/-- Register `r` in an image. -/
def imageRegister (image : List Byte) (r : Nat) : Extended :=
  .ofBytes ((image.drop (28 + 10 * r)).take 10)

/-- The state in an image.  The summary bits follow from the other ones. -/
def loadImage (image : List Byte) : Fpu :=
  let f : Fpu :=
    { regs := Vector.ofFn fun r => imageRegister image r
      control := (imageDword image 0).setWidth 16
      status := 0
      top := 0
      tags := (imageDword image 2).setWidth 16
      ipOffset := imageDword image 3
      ipSelector := (imageDword image 4).setWidth 16
      opcode := (imageDword image 4).extractLsb' 16 16 &&& 0x7FF
      dpOffset := imageDword image 5
      dpSelector := (imageDword image 6).setWidth 16 }
  (f.setStatusWord ((imageDword image 1).setWidth 16)).summarize

end Ia32.Fpu
