import Hoe.Chars

/-!
# Key names

The codes of the keys, their names, and the functions of util.c and qe.c that print a sequence of keys and read it back. A string
is the list of its bytes, without the zero that ends it: what a function reads behind the end is that zero.
-/

namespace Hoe

/-- The bytes of a string constant. -/
def cstr (s : String) : List Byte := s.toList.map Char.toNat

/-! ## Codes -/

/-- `KEY_CTRL`. -/
def keyCtrl (c : Nat) : Nat := c &&& 0x1f

/-- `KEY_META`. -/
def keyMeta (c : Nat) : Nat := c ||| 0xe000

/-- `KEY_ESC1`. -/
def keyEsc1 (c : Nat) : Nat := c ||| 0xe100

/-- `KEY_ESC`. -/
def keyEsc : Nat := 0x1b

/-- `KEY_RET`. -/
def keyRet : Nat := 0x0d

/-- `KEY_BACKSPACE`. -/
def keyBackspace : Nat := 127

/-- `KEY_DEFAULT`, which stands for all keys that are not special. -/
def keyDefault : Nat := 0xe401

/-- `KEY_F1`. -/
def keyF1 : Nat := keyEsc1 11

/-- `KEY_F12`. -/
def keyF12 : Nat := keyEsc1 22

/-- `KEY_SPECIAL`. -/
def keySpecial (c : Nat) : Bool := (0xe000 ≤ c && c < 0xf000) || c < 32

/-- `MAX_KEYS`. -/
def maxKeys : Nat := 10

/-- The tables `keycodes` and `keystr`. -/
def keyNames : List (Nat × List Byte) :=
  [(keyEsc1 68, cstr "left"), (keyEsc1 67, cstr "right"), (keyEsc1 65, cstr "up"), (keyEsc1 66, cstr "down"),
    (keyEsc1 100, cstr "C-left"), (keyEsc1 99, cstr "C-right"), (keyEsc1 97, cstr "C-up"), (keyEsc1 98, cstr "C-down"),
    (0xe402, cstr "C-home"), (0xe403, cstr "C-end"),
    (keyCtrl 95, cstr "C-_"), (keyCtrl 32, cstr "C-space"), (keyCtrl 92, cstr "C-\\"),
    (keyBackspace, cstr "backspace"), (keyEsc1 2, cstr "insert"), (keyEsc1 3, cstr "delete"),
    (keyEsc1 5, cstr "prior"), (keyEsc1 6, cstr "next"), (keyEsc1 7, cstr "home"), (keyEsc1 8, cstr "end"),
    (32, cstr "SPC"), (keyRet, cstr "RET"), (keyEsc, cstr "ESC"), (keyCtrl 105, cstr "TAB"), (0xe404, cstr "S-TAB"),
    (keyDefault, cstr "default")]

/-! ## Printing -/

/-- The body of `keytostr`, with what it does for the key without the meta bits. -/
def keytostrBody (plain : Nat → List Byte) (key : Nat) : List Byte :=
  match keyNames.find? (·.1 == key) with
  | some n => n.2
  | none =>
    if keyMeta 32 ≤ key ∧ key ≤ keyMeta 127 then cstr "M-" ++ plain (key &&& 0xff)
    else if 1 ≤ key ∧ key ≤ 31 then cstr "C-" ++ [key + 97 - 1]
    else if keyF1 ≤ key ∧ key ≤ keyF12 then cstr "F" ++ (Nat.toDigits 10 (key - keyF1 + 1)).map Char.toNat
    else utf8Encode key

/-- `keytostr`. It calls itself once at most: a code below 0x100 has no meta bits. -/
def keytostr (key : Nat) : List Byte := keytostrBody (keytostrBody fun _ => []) key

/-- `pstrcat`. -/
def pstrcat (bufSize : Nat) (buf s : List Byte) : List Byte :=
  if buf.length < bufSize then buf ++ s.take (bufSize - buf.length - 1) else buf

/-- The loop of `keys_to_str` behind the first key. -/
def addKeys (bufSize : Nat) : List Byte → List Nat → List Byte
  | buf, [] => buf
  | buf, key :: keys => addKeys bufSize (pstrcat bufSize (pstrcat bufSize buf (cstr " ")) (keytostr key)) keys

/-- `keys_to_str`. -/
def keysToStr (bufSize : Nat) : List Nat → List Byte
  | [] => []
  | key :: keys => addKeys bufSize (pstrcat bufSize [] (keytostr key)) keys

/-! ## Reading -/

/-- `isdigit`. -/
def isDigit (c : Byte) : Bool := 48 ≤ c && c ≤ 57

/-- `css_is_space`. -/
def cssIsSpace (c : Byte) : Bool := c == 32 || c == 10 || c == 13 || c == 9

/-- `skip_spaces`. -/
def skipSpaces (p : List Byte) : List Byte := p.dropWhile cssIsSpace

/-- A letter, `'a'` to `'z'`. -/
def isLower (c : Nat) : Bool := 97 ≤ c && c ≤ 122

/-- `strtokey1`. The names are compared with all that is left, and the second digit behind an `f` is the first one again. -/
def strtokey1 (p : List Byte) : Nat :=
  match keyNames.find? (·.2 == p) with
  | some n => n.1
  | none =>
    if p.headD 0 = 102 ∧ isDigit (p.getD 1 0) then
      let digit : Nat := p.getD 1 0 - 48
      let n := if isDigit (p.getD 2 0) then digit * 10 + digit else digit
      keyF1 + (if n = 0 then 1 else n) - 1
    else (utf8Decode p).1

/-- The key that `strtokey` finds. -/
def keyOf (p : List Byte) : Nat :=
  if p.take 2 = cstr "C-" then
    let key := strtokey1 (p.drop 2)
    if isLower key then keyCtrl key else key
  else if p.take 2 = cstr "M-" then
    let key := strtokey1 (p.drop 2)
    if isLower key ∨ key = keyBackspace then keyMeta key else key
  else strtokey1 p

/-- `strtokey`: the key, and what is left behind the word. -/
def strtokey (p : List Byte) : Nat × List Byte := (keyOf p, p.dropWhile (· != 32))

/-- The loop of `do_global_set_key`, with how many more keys there is room for. -/
def parseKeys : Nat → List Byte → List Nat
  | 0, _ => []
  | n + 1, p =>
    let p := skipSpaces p
    if p = [] then [] else
    let r := strtokey p
    r.1 :: parseKeys n r.2

end Hoe
