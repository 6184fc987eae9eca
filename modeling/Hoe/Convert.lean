import Hoe.Characters
import Hoe.EditBuffer
import Hoe.Keys

/-!
# Converting the charset of a buffer

`do_convert_buffer_file_coding_system` of qe.c: the buffer is decoded character by character into a temporary one, which then
takes the place of its text. `find_charset` of charset.c finds the charset by a name or an alias, in any case of the letters.
-/

namespace Hoe

/-- The charsets as `charset_init` registers them, with their names and aliases. -/
def charsetNames : List (Charset × List (List Byte)) :=
  [(.latin1, [cstr "8859-1", cstr "ISO-8859-1", cstr "iso-ir-100", cstr "latin1", cstr "l1", cstr "819"]),
    (.utf8, [cstr "utf-8", cstr "utf8"]),
    (.ascii, [cstr "7bit", cstr "us-ascii", cstr "ascii", cstr "7bit", cstr "7-bit", cstr "iso-ir-6", cstr "ANSI_X3.4", cstr "646"])]

/-- `strcasecmp` finds no difference. -/
def sameCase (s t : List Byte) : Bool := s.map tolower = t.map tolower

/-- `find_charset`. -/
def findCharset (str : List Byte) : Option Charset :=
  (charsetNames.find? (fun p => p.2.any (sameCase str))).map Prod.fst

/-- A buffer with the charset its bytes are read in. -/
structure CodedBuffer where
  b : EditBuffer
  charset : Charset
deriving DecidableEq, Repr

/-- The loop of `do_convert_buffer_file_coding_system`: each character of the text `t` from the offset on goes to the end of
`b1`. None when `n` turns are not enough; `junk` is what lies on the stack before each of them. -/
def convertLoop (charset dest : Charset) (junk : Nat → List Byte) : Nat → Pages → Int → EditBuffer → Option (Pages × EditBuffer)
  | 0, _, _, _ => none
  | n + 1, t, offset, b1 =>
    if t.totalSize ≤ offset then some (t, b1) else
    let (t, c, offset) := ebNextc t charset (junk n) offset
    convertLoop charset dest junk n t offset (ebWrite b1 b1.totalSize (unicodeToCharset c dest))

/-- `do_convert_buffer_file_coding_system`. A name that no charset has leaves the buffer alone. -/
def doConvertBufferFileCodingSystem (junk : Nat → List Byte) (s : CodedBuffer) (charsetStr : List Byte) : Option CodedBuffer :=
  match findCharset charsetStr with
  | none => some s
  | some charset =>
    (convertLoop s.charset charset junk (s.b.totalSize + 1) s.b.toPages 0 (EditBuffer.new false)).map fun r =>
      let b := { s.b with toPages := r.1 }
      -- replace current buffer with convertion
      let b := ebDelete b 0 b.totalSize
      ⟨(ebInsertBuffer b 0 r.2.toPages 0 r.2.totalSize).1, charset⟩

/-- The characters that `eb_nextc` reads one after the other from an offset to the end of the text. -/
def readChars (charset : Charset) (junk : Nat → List Byte) : Nat → Pages → Int → Option (List Nat)
  | 0, _, _ => none
  | n + 1, t, offset =>
    if t.totalSize ≤ offset then some [] else
    let (t, c, offset) := ebNextc t charset (junk n) offset
    (readChars charset junk n t offset).map (c :: ·)

/-- The characters of the buffer. -/
def CodedBuffer.characters (s : CodedBuffer) (junk : Nat → List Byte) : Option (List Nat) :=
  readChars s.charset junk (s.b.totalSize + 1) s.b.toPages 0

end Hoe
