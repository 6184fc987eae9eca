import Hoe.Search
import Hoe.KeyProcess
import Hoe.Display

/-!
# The status line

`put_status`, which takes a format as `printf` does, and the two texts that are made of what the user types and go to it as the
format: the search string of `isearch_display`, and the keys that `qe_key_process` shows. Both are put together in arrays without a
check, and there is no result once they are too long for them.
-/

namespace Hoe

/-- What a format gives to which no arguments belong: `none` where a conversion takes one, or is none that the language has. -/
def formatted : List Byte → Option (List Byte)
  | [] => some []
  | 0 :: _ => some []
  | 0x25 :: 0x25 :: fmt => (formatted fmt).map (0x25 :: ·)
  | 0x25 :: _ => none
  | c :: fmt => (formatted fmt).map (c :: ·)

/-- `vsnprintf` without arguments. -/
def vsnprintf (size : Nat) (fmt : List Byte) : Option (List Byte) := (formatted fmt).map (·.take (size - 1))

/-- The status line of the screen, and `status_shadow`, by which `put_status` knows what is on it. -/
structure StatusLine where
  drawn : List Byte
  statusShadow : List Byte
  same : drawn = statusShadow

/-- `put_status`. -/
def putStatus (line : StatusLine) (fmt : List Byte) : Option StatusLine :=
  (vsnprintf TextDisplay.maxScreenWidth fmt).map fun buf => if buf ≠ line.statusShadow then ⟨buf, buf, rfl⟩ else line

/-! ## The search string -/

/-- What stands in front of the search string. -/
def isearchPrompt (failing hexMode word ignoreCase smartCase backward : Bool) : List Byte :=
  (if failing then cstr "Failing " else []) ++
    (if hexMode then cstr "hex "
      else (if word then cstr "word " else []) ++
        (if ignoreCase then cstr "case-insensitive " else if smartCase then [] else cstr "case-sensitive ")) ++
    cstr "I-search" ++ (if backward then cstr " backward" else []) ++ cstr ": "

namespace ISearchState

/-- The prompt, once the search was made. -/
def prompt (is : ISearchState) : List Byte :=
  isearchPrompt (is.foundOffset < 0 && 0 < is.bytes.buf.length) is.s.hexMode is.searchFlags.word is.searchFlags.ignoreCase
    is.searchFlags.smartCase (is.dir = .backward)

/-- The characters of the search string. -/
def typed (is : ISearchState) : List Byte := (searchedKeys is.searchString).flatMap utf8Encode

/-- `ubuf` of `isearch_display`, an array of 256 bytes with the zero that ends the string. -/
def ubuf (is : ISearchState) : Option (List Byte) :=
  if (is.prompt ++ is.typed).length < 256 then some (is.prompt ++ is.typed) else none

/-- The second part of `isearch_display`: display the search string. -/
def displayString (is : ISearchState) (line : StatusLine) : Option StatusLine := is.ubuf.bind (putStatus line)

end ISearchState

/-! ## The keys -/

namespace KeyState

variable {E : Type}

/-- `qe_key_process` gets to its end with a key, where it displays it. -/
def echoed (st : KeyState E) (key : Nat) : Bool :=
  !st.minibuf &&
    match st.keyAction key with
    | .grabbed | .full => false
    | .unknown _ | .pending _ => true
    | .command d c => d.func = .universalArgument && !c.describeKey

/-- The end of `qe_key_process`: display the keys pressed, which `buf` of the key context has with the zero that ends them. -/
def displayKeys (st : KeyState E) (line : StatusLine) : Option StatusLine :=
  if st.ctx.buf.length < 128 then putStatus line st.ctx.buf else none

end KeyState

end Hoe
