import Hoe.Editor
import Hoe.Keys

/-!
# Searching

`eb_search` of qe.c, and the two commands that search while keys are typed.
-/

namespace Hoe

/-!
## Searching a text

`eb_search` of qe.c. It reads the text byte by byte through `eb_read`, which moves the page cache; no function can tell, so the
page table is left alone here.
-/

/-- The direction of a search: `dir` is 1 or -1. -/
inductive Direction where
  | forward
  | backward
deriving DecidableEq, Repr

/-- The value of `dir`. -/
def Direction.step : Direction → Int
  | forward => 1
  | backward => -1

/-- The bits of `flags`: `SEARCH_FLAG_IGNORECASE`, `SEARCH_FLAG_SMARTCASE` and `SEARCH_FLAG_WORD`. -/
structure SearchFlags where
  ignoreCase : Bool
  smartCase : Bool
  word : Bool
deriving DecidableEq, Repr

/-- `flags` is 0. -/
def SearchFlags.none : SearchFlags := { ignoreCase := false, smartCase := false, word := false }

/-- `islower` of the C locale. -/
def islower (c : Nat) : Bool := 0x61 ≤ c ∧ c ≤ 0x7a

/-- `isupper` of the C locale. -/
def isupper (c : Nat) : Bool := 0x41 ≤ c ∧ c ≤ 0x5a

/-- `sizeof(buf1)`. -/
def searchBufSize : Nat := 1024

/-- The byte that `eb_read` reads at an offset. -/
def readByte (t : Pages) (offset : Int) : Byte := (ebRead t offset.toNat 1).2.headD 0

/-- Whether the search ignores the case, after the analysis of the pattern for smart case. -/
def ignoresCase (flags : SearchFlags) (buf : List Byte) : Bool :=
  flags.ignoreCase || flags.smartCase && (0 < buf.countP islower && buf.countP isupper = 0)

/-- A byte as the search compares it. -/
def searchByte (ignoreCase : Bool) (c : Byte) : Byte := if ignoreCase then toupper c else c

/-- The loop over the copy of the pattern: the bytes from the offset on are the same. -/
def compareBytes (t : Pages) (ignoreCase : Bool) : List Byte → Int → Bool
  | [], _ => true
  | c :: buf1, offset => searchByte ignoreCase (readByte t offset) = c && compareBytes t ignoreCase buf1 (offset + 1)

/-- The loop of `eb_search` returns at this offset. -/
def foundAt (t : Pages) (ignoreCase word : Bool) (buf1 : List Byte) (offset : Int) : Bool :=
  -- search start of word
  (!word || offset = 0 || !isword (readByte t (offset - 1))) &&
    compareBytes t ignoreCase buf1 offset &&
    -- check end of word
    (!word || t.totalSize ≤ offset + buf1.length || !isword (readByte t (offset + buf1.length)))

/-- The loop of `eb_search`. `abort` says whether `abort_func` stops the search where it is called. -/
def searchLoop (t : Pages) (dir : Direction) (ignoreCase word : Bool) (buf1 : List Byte) (abort : Int → Bool) (offset : Int) :
    Int :=
  if offset + dir.step < 0 then -1
  else if t.totalSize - buf1.length < offset + dir.step then -1
  else if (offset + dir.step) % 0x1000 = 0 ∧ abort (offset + dir.step) then -1
  else if foundAt t ignoreCase word buf1 (offset + dir.step) then offset + dir.step
  else searchLoop t dir ignoreCase word buf1 abort (offset + dir.step)
termination_by
  match dir with
  | .forward => (t.totalSize - buf1.length - offset).toNat
  | .backward => (offset + 1).toNat
decreasing_by cases dir <;> simp only [Direction.step] at * <;> omega

/-- `eb_search`. -/
def ebSearch (t : Pages) (offset : Int) (dir : Direction) (buf : List Byte) (flags : SearchFlags) (abort : Int → Bool) : Int :=
  if buf.length = 0 ∨ searchBufSize ≤ buf.length then -1 else
  let ignoreCase := ignoresCase flags buf
  let start :=
    match dir with
    | .backward => if t.totalSize - buf.length < offset then t.totalSize - buf.length else offset
    | .forward => offset - 1
  searchLoop t dir ignoreCase flags.word (buf.map (searchByte ignoreCase)) abort start

/-!
## Incremental search

`do_isearch` and the function that grabs the keys afterwards. The string that is searched and the offsets where it was found are
kept in one array of keys, `search_string`: an offset carries a tag. `pending` says whether keys are waiting, which stops a search
where it asks. The status line is left out.
-/

/-- `SEARCH_LENGTH`. -/
def searchLength : Nat := 80

/-- An element of `search_string`: a key, or with `FOUND_TAG` the offset of a match. -/
inductive SearchEntry where
  | key (v : Nat)
  | found (offset : Int)
deriving DecidableEq, Repr

/-- `ISearchState`, with the window and the string of the last search. The first `pos` elements of `search_string` are a list. -/
structure ISearchState where
  s : Editor
  startOffset : Int
  dir : Direction
  searchFlags : SearchFlags
  foundOffset : Int
  searchString : List SearchEntry
  lastSearchString : List Nat

/-- What the loop over `search_string` has gathered: the bytes to search for, the first nibble of the next one in hexadecimal, and
where to begin. -/
structure SearchBytes where
  buf : List Byte
  hexNibble : Option Nat
  searchOffset : Int
deriving DecidableEq, Repr

/-- The element goes into the bytes, as long as there is room for them. -/
def SearchBytes.add (s : Editor) (dir : Direction) (sb : SearchBytes) : SearchEntry → SearchBytes
  | .key v =>
    if sb.buf.length < 2 * searchLength - 10 then
      if s.hexMode then
        match toHex v, sb.hexNibble with
        | some h, none => { sb with hexNibble := some (h * 16) }
        | some h, some high => { sb with buf := sb.buf ++ [high + h], hexNibble := none }
        | none, _ => sb
      else { sb with buf := sb.buf ++ unicodeToCharset v s.charset }
    else sb
  | .found offset => { sb with searchOffset := offset + dir.step }

namespace ISearchState

/-- The first part of `isearch_display`: prepare the search bytes. -/
def bytes (is : ISearchState) : SearchBytes :=
  is.searchString.foldl (SearchBytes.add is.s is.dir) { buf := [], hexNibble := none, searchOffset := is.startOffset }

/-- The flags of the search. -/
def flags (is : ISearchState) : SearchFlags := if is.s.hexMode then .none else is.searchFlags

end ISearchState

/-- `isearch_display`. -/
def isearchDisplay (pending : Int → Bool) (is : ISearchState) : ISearchState :=
  let sb := is.bytes
  if sb.buf.length = 0 then { is with s := { is.s with offset := is.startOffset }, foundOffset := -1 } else
  let found := ebSearch is.s.buffer.toPages sb.searchOffset is.dir sb.buf is.flags pending
  { is with foundOffset := found, s := { is.s with offset := if 0 ≤ found then found + sb.buf.length else is.s.offset } }

/-- What a key leads to: the search goes on, or it is over with the string that is kept and the key that is posted again. -/
inductive ISearch where
  | searching (is : ISearchState)
  | ended (s : Editor) (lastSearchString : List Nat) (reposted : Option Nat)

/-- The keys of `search_string` without the offsets. -/
def searchedKeys (entries : List SearchEntry) : List Nat :=
  entries.filterMap fun
    | .key v => some v
    | .found _ => none

namespace ISearchState

/-- The end of the search: save the searched string. -/
def theEnd (is : ISearchState) (s : Editor) (reposted : Option Nat) : ISearch :=
  .ended s (if 0 < is.searchString.length then searchedKeys is.searchString else is.lastSearchString) reposted

/-- `addpos`: use the last searched string if there is no input, or add the position of the match. -/
def addpos (is : ISearchState) (dir : Direction) : ISearchState :=
  if is.searchString.length = 0 then { is with dir := dir, searchString := is.lastSearchString.map .key }
  else if is.searchString.length < searchLength ∧ 0 ≤ is.foundOffset then
    { is with dir := dir, searchString := is.searchString ++ [.found is.foundOffset] }
  else { is with dir := dir }

end ISearchState

/-- `isearch_key`. -/
def isearchKey (pending : Int → Bool) (is : ISearchState) (ch : Nat) : ISearch :=
  if ch = keyBackspace then
    .searching (isearchDisplay pending { is with searchString := is.searchString.dropLast })
  else if ch = keyCtrl 'g'.toNat then
    is.theEnd { is.s with offset := is.startOffset } none
  else if ch = keyCtrl 's'.toNat then .searching (isearchDisplay pending (is.addpos .forward))
  else if ch = keyCtrl 'r'.toNat then .searching (isearchDisplay pending (is.addpos .backward))
  else if ch = keyCtrl 'w'.toNat then
    .searching (isearchDisplay pending { is with searchFlags := { is.searchFlags with word := !is.searchFlags.word } })
  else if ch = keyCtrl 'c'.toNat then
    .searching (isearchDisplay pending
      { is with searchFlags := { is.searchFlags with ignoreCase := !is.searchFlags.ignoreCase, smartCase := false } })
  else if keySpecial ch then
    -- exit search mode
    is.theEnd { is.s with buffer := { is.s.buffer with mark := is.startOffset } } (if ch ≠ keyRet then some ch else none)
  else if is.searchString.length < searchLength then
    .searching (isearchDisplay pending { is with searchString := is.searchString ++ [.key ch] })
  else .searching (isearchDisplay pending is)

/-- `do_isearch`. -/
def doIsearch (pending : Int → Bool) (s : Editor) (dir : Direction) (lastSearchString : List Nat) : ISearchState :=
  isearchDisplay pending
    { s := s, startOffset := s.offset, dir := dir, searchFlags := { ignoreCase := false, smartCase := true, word := false }
      foundOffset := -1, searchString := [], lastSearchString := lastSearchString }

/-- Keys one after the other, until the search is over. -/
def isearchKeys (pending : Int → Bool) (is : ISearchState) : List Nat → ISearch
  | [] => .searching is
  | ch :: chs =>
    match isearchKey pending is ch with
    | .searching is => isearchKeys pending is chs
    | .ended s last reposted => .ended s last reposted

/-!
## Query replace

`do_query_replace` and the function that grabs the keys afterwards. A search that finds its string is either answered by a
replacement at once or asks; `query_replace_display` loops over the replacements, `n` of its turns at most. Outside of what the
buffer layer documents there is no result. The strings and the status line are left out.
-/

/-- The loop of `to_bytes` over hexadecimal digits: `h` is the first nibble of a byte. -/
def hexBytes : Option Nat → List Byte → List Byte
  | _, [] => []
  | h, c :: str =>
    match toHex c, h with
    | none, _ => hexBytes h str
    | some digit, none => hexBytes (some digit) str
    | some digit, some high => (high * 16 + digit) :: hexBytes none str

/-- `to_bytes`: the bytes that a string of the minibuffer stands for, as many as there is room for. -/
def toBytes (s : Editor) (dstSize : Nat) (str : List Byte) : List Byte :=
  if s.hexMode then (hexBytes none str).take dstSize else str.take dstSize

/-- `QueryReplaceState`. -/
structure QueryReplaceState where
  s : Editor
  nbReps : Nat
  searchBytes : List Byte
  replaceBytes : List Byte
  foundOffset : Int
  replaceAll : Bool

/-- The dialogue asks about an occurrence, or it is over (`query_replace_abort`). -/
inductive QueryReplace where
  | asking (is : QueryReplaceState)
  | ended (s : Editor) (nbReps : Nat)

/-- `query_replace_replace`. -/
def queryReplaceReplace (is : QueryReplaceState) : Option QueryReplaceState := do
  let s ← is.s.ebDelete is.foundOffset is.searchBytes.length
  let s ← s.ebInsert is.foundOffset is.replaceBytes
  some { is with s := s, foundOffset := is.foundOffset + is.replaceBytes.length, nbReps := is.nbReps + 1 }

/-- `query_replace_display`. -/
def queryReplaceDisplay : Nat → QueryReplaceState → Option QueryReplace
  | 0, _ => none
  | n + 1, is =>
    let found := ebSearch is.s.buffer.toPages is.foundOffset .forward is.searchBytes .none fun _ => false
    if found < 0 then some (.ended is.s is.nbReps)
    else if is.replaceAll then (queryReplaceReplace { is with foundOffset := found }).bind (queryReplaceDisplay n)
    else some (.asking { is with foundOffset := found, s := { is.s with offset := found } })

/-- `query_replace_key`. -/
def queryReplaceKey (n : Nat) (is : QueryReplaceState) (ch : Nat) : Option QueryReplace :=
  if ch = 'y'.toNat ∨ ch = ' '.toNat then (queryReplaceReplace is).bind (queryReplaceDisplay n)
  else if ch = '!'.toNat then queryReplaceDisplay n { is with replaceAll := true }
  else if ch = 'n'.toNat ∨ ch = keyEsc1 3 then queryReplaceDisplay n is
  else some (.ended is.s is.nbReps)

/-- `do_query_replace`. In a buffer that is read only nothing is asked. -/
def doQueryReplace (n : Nat) (s : Editor) (searchStr replaceStr : List Byte) : Option QueryReplace :=
  if s.buffer.readOnly then some (.ended s 0) else
  queryReplaceDisplay n
    { s := s, nbReps := 0, searchBytes := toBytes s searchLength searchStr, replaceBytes := toBytes s searchLength replaceStr
      foundOffset := s.offset, replaceAll := false }

/-- A key while the dialogue goes on; afterwards it is no longer grabbed. -/
def QueryReplace.key (n : Nat) : QueryReplace → Nat → Option QueryReplace
  | asking is, ch => queryReplaceKey n is ch
  | ended s nbReps, _ => some (ended s nbReps)

/-- The dialogue after the keys. -/
def queryReplaceKeys (n : Nat) (s : Editor) (searchStr replaceStr : List Byte) (chs : List Nat) : Option QueryReplace :=
  (doQueryReplace n s searchStr replaceStr).bind fun q => chs.foldlM (QueryReplace.key n) q

end Hoe
