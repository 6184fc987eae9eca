import Hoe.Cells

/-!
# The colorize functions of the modes

`c_colorize_line` of clang.c, `py_colorize_line` of pylang.c, `latex_colorize_line` of latex-mode.c, `patch_colorize_line` of
patch-mode.c and `cscope_colorize_line` of cscope.c.
-/

namespace Hoe

open Sentinel

/-! ## C

The loop is entered in the middle when the line before left a state.
-/

/-- `c_keywords`. -/
def cKeywords : String :=
  "|auto|break|case|const|continue|do|else|enum|extern|for|goto|" ++
  "if|register|return|static|struct|switch|typedef|union|volatile|while|" ++
  "class|private|public|protected|try|except|template|typename|throw|" ++
  "using|namespace|catch|explicit|virtual|noexcept|operator|new|delete|"

/-- `c_types`. -/
def cTypes : String :=
  "|char|double|float|int|long|unsigned|short|signed|void|var|" ++
  "u8|uint8_t|u16|uint16_t|u32|uint32_t|u64|uint64_t|bool|" ++
  "vector|ordered_map|unordered_map|string|nullptr|"

/-- `C_COMMENT`. -/
def cComment : Int := 1

/-- `C_PREPROCESS`. -/
def cPreprocess : Int := 4

/-- `C_IF0`. -/
def cIf0 : Int := 5

/-- From `parse_comment` on, `k` cells behind `p_start`. -/
def parseComment (k : Nat) (cells : List Nat) (typeDecl : Bool) : Option Round := do
  let (n, ended) ← pairLoop '*'.toNat '/'.toNat cells
  some ⟨[⟨0, k + n, qeStyleComment⟩], k + n, if ended then 0 else cComment, typeDecl, false⟩

/-- From `parse_preprocessor` on, with `p_start` at `start`: `p` goes to `buf + len`. -/
def parsePreprocessor (buf : List Nat) (len start : Nat) (typeDecl : Bool) : Option Round := do
  let continued ← if 0 < len then do
      let c ← buf[len - 1]?
      some (decide (charMask c = '\\'.toNat))
    else some false
  some ⟨[⟨0, len - start, qeStylePreprocess⟩], len - start, if continued then cPreprocess else 0, typeDecl, true⟩

/-- `set_color(p_start, len, QE_STYLE_COMMENT)` and `goto the_end`. -/
def disabledRound (len : Nat) (state : Int) (typeDecl : Bool) : Round := ⟨[⟨0, len, qeStyleComment⟩], 0, state, typeDecl, true⟩

/-- From `parse_disabled_block` on; it is only entered at the beginning of the line. -/
def parseDisabledBlock (buf : List Nat) (len : Nat) (typeDecl : Bool) : Option Round := do
  if ← looksAt (charsOf "endif") (buf.drop 1) then some (disabledRound len 0 typeDecl)
  else if ← looksAt (charsOf "el") (buf.drop 1) then
    if ← looksAt (charsOf "if") (buf.drop 3) then some (disabledRound len 0 typeDecl)
    else if ← looksAt (charsOf "se") (buf.drop 3) then some (disabledRound len 0 typeDecl)
    else parsePreprocessor buf len 0 typeDecl
  else some (disabledRound len cIf0 typeDecl)

/-- One turn of the loop of `c_colorize_line`, at `p`. -/
def cRound (len : Nat) (buf : List Nat) (p : Nat) (state : Int) (typeDecl : Bool) : Option Round :=
  match buf.drop p with
  | [] => none
  | c :: cells =>
    if c = newline then some (endRound state typeDecl)
    else if c = '/'.toNat then do
      if ← looksAt (charsOf "*") cells then parseComment 2 (cells.drop 1) typeDecl
      else if ← looksAt (charsOf "/") cells then lineComment 1 cells state typeDecl
      else some (plainRound state typeDecl)
    else if c = '#'.toNat then do
      if ← looksAt (charsOf "if 0") cells then some (disabledRound len cIf0 typeDecl)
      else parsePreprocessor buf len p typeDecl
    else if c = '\''.toNat then parseString 1 cells stateStringQ typeDecl
    else if c = '"'.toNat then parseString 1 cells stateString typeDecl
    -- the end of a declaration
    else if c = '='.toNat then some (plainRound state false)
    else if keywordStart c then wordRound cKeywords cTypes (decide (p = 0)) (decide (p = 0)) (c :: cells) state typeDecl
    else some (plainRound state typeDecl)

/-- The `switch` in front of the loop, and the rest of the turn that it goes to. -/
def cEntry (buf : List Nat) (len : Nat) (state : Int) : Option Round :=
  if state = cComment then parseComment 0 buf false
  else if state = stateString ∨ state = stateStringQ then parseString 0 buf state false
  else if state = cPreprocess then parsePreprocessor buf len 0 false
  else if state = cIf0 then parseDisabledBlock buf len false
  else cRound len buf 0 state false

/-- `c_colorize_line`. -/
def cColorizeLine (m : Margin) : ArrayColorize := fun buf len state => do
  let first ← cEntry buf len state
  let (buf, state) ← colorLoop (cRound len) buf.length buf 0 first
  let buf ← highlightMargin m buf len
  some (buf, state)

/-! ## Python -/

/-- `py_keywords`. -/
def pyKeywords : String :=
  "|def|break|continue|do|else|for|elif|try|except|pass|throw|" ++
  "if|return|while|with|as|"

/-- `py_types`. -/
def pyTypes : String :=
  "|char|double|float|int|long|unsigned|short|signed|void|var|" ++
  "u8|uint8_t|u16|uint16_t|u32|uint32_t|u64|uint64_t|"

/-- One turn of the loop of `py_colorize_line`, at `p`. -/
def pyRound (buf : List Nat) (p : Nat) (state : Int) (typeDecl : Bool) : Option Round :=
  match buf.drop p with
  | [] => none
  | c :: cells =>
    if c = newline then some (endRound state typeDecl)
    else if c = '#'.toNat then lineComment 0 (c :: cells) state typeDecl
    else if c = '\''.toNat then parseString 1 cells stateStringQ typeDecl
    else if c = '"'.toNat then parseString 1 cells stateString typeDecl
    else if c = '='.toNat then some (plainRound state false)
    else if keywordStart c then wordRound pyKeywords pyTypes true (decide (p = 0)) (c :: cells) state typeDecl
    else some (plainRound state typeDecl)

/-- The `switch` in front of the loop. -/
def pyEntry (buf : List Nat) (state : Int) : Option Round :=
  if state = stateString ∨ state = stateStringQ then parseString 0 buf state false else pyRound buf 0 state false

/-- `py_colorize_line`. -/
def pyColorizeLine (m : Margin) : ArrayColorize := fun buf len state => do
  let first ← pyEntry buf state
  let (buf, state) ← colorLoop pyRound buf.length buf 0 first
  let buf ← highlightMargin m buf len
  some (buf, state)

/-! ## LaTeX -/

/-- The loop over a `{variable}`, with the braces that are open in it. -/
def bracesLoop : Nat → List Nat → Option Nat
  | _, [] => none
  | braces, c :: cells =>
    if c = newline then some 0
    else if c = '{'.toNat then (bracesLoop (braces + 1) cells).map (· + 1)
    else if c = '}'.toNat then if braces = 0 then some 0 else (bracesLoop (braces - 1) cells).map (· + 1)
    else (bracesLoop braces cells).map (· + 1)

/-- `if (*p == c) p++`, and the blanks behind it. -/
def passClosing (c : Nat) (cells : List Nat) : Option Nat := do
  let closed ← looksAt [c] cells
  let n := if closed then 1 else 0
  let blanks ← scanWhile isSpaceOrTab (cells.drop n)
  some (n + blanks)

/-- The loop over what follows a `\function`, `n` turns at most, `k` cells behind the place where the turn began. -/
def latexArgs : Nat → Nat → List Nat → Option (List Span × Nat)
  | 0, _, _ => none
  | _ + 1, _, [] => none
  | n + 1, k, c :: cells =>
    if c = '['.toNat then do
      let len ← scanWhile (fun c => c ≠ ']'.toNat ∧ c ≠ newline) cells
      let more ← passClosing ']'.toNat (cells.drop len)
      let (spans, p) ← latexArgs n (k + 1 + len + more) (cells.drop (len + more))
      some (⟨k + 1, len, qeStyleKeyword⟩ :: spans, p)
    else if c = '{'.toNat then do
      let len ← bracesLoop 0 cells
      let more ← passClosing '}'.toNat (cells.drop len)
      let (spans, p) ← latexArgs n (k + 1 + len + more) (cells.drop (len + more))
      some (⟨k + 1, len, qeStyleVariable⟩ :: spans, p)
    else some ([], k)

/-- The name of a `\function`: one character, or up to one that ends it. -/
def latexName (cells : List Nat) : Option Nat := do
  let c ← cells.head?
  if c ∈ charsOf "'\"~%\\" then some 1 else scanWhile (fun c => c ∉ charsOf "\x7b[\n \\") cells

/-- One turn of the loop of `latex_colorize_line`, at `p`. -/
def latexRound (buf : List Nat) (p : Nat) (state : Int) (typeDecl : Bool) : Option Round :=
  match buf.drop p with
  | [] => none
  | c :: cells =>
    if c = newline then some (endRound state typeDecl)
    else if [c] = charsOf "`" then do
      if ← looksAt (charsOf "`") cells then do
        let (n, _) ← pairLoop '\''.toNat '\''.toNat (cells.drop 1)
        some ⟨[⟨0, 2 + n, qeStyleString⟩], 2 + n, state, typeDecl, false⟩
      else some (plainRound state typeDecl)
    else if c = '\\'.toNat then do
      let n ← latexName cells
      let blanks ← scanWhile isSpaceOrTab (cells.drop n)
      let (spans, passed) ← latexArgs buf.length (1 + n + blanks) (cells.drop (n + blanks))
      some ⟨⟨0, 1 + n, qeStyleFunction⟩ :: spans, passed, state, typeDecl, false⟩
    else if c = '%'.toNat then lineComment 1 cells state typeDecl
    else some (plainRound state typeDecl)

/-- `latex_colorize_line`. -/
def latexColorizeLine : ArrayColorize := fun buf _ state => do
  let first ← latexRound buf 0 state false
  colorLoop latexRound buf.length buf 0 first

/-! ## Patches -/

/-- Whether the cells begin with one of the words. -/
def looksAtOne : List (List Nat) → List Nat → Option Bool
  | [], _ => some false
  | w :: ws, cells => do if ← looksAt w cells then some true else looksAtOne ws cells

/-- `is_index_line`. -/
def isIndexLine : List Nat → Option Bool := looksAtOne [charsOf "Index", charsOf "index"]

/-- `is_file_meta`. -/
def isFileMeta : List Nat → Option Bool :=
  looksAtOne [charsOf "--- a", charsOf "--- /", charsOf "+++ b", charsOf "+++ /"]

/-- `is_addition`. -/
def isAddition : List Nat → Option Bool := looksAt (charsOf "+")

/-- `is_deletion`. -/
def isDeletion : List Nat → Option Bool := looksAt (charsOf "-")

/-- `is_hunk`. -/
def isHunk : List Nat → Option Bool := looksAt (charsOf "@@ ")

/-- The style that `patch_colorize_line` finds for the line, if one. -/
def patchStyle (buf : List Nat) : Option (Option Nat) := do
  if ← isIndexLine buf then some (some qeStylePatchIndex)
  else if ← isFileMeta buf then some (some qeStylePatchFileMeta)
  else if ← isAddition buf then some (some qeStylePatchAddition)
  else if ← isDeletion buf then some (some qeStylePatchDeletion)
  else if ← isHunk buf then some (some qeStylePatchHunk)
  else some none

/-- `patch_colorize_line`. -/
def patchColorizeLine : ArrayColorize := fun buf len state => do
  match ← patchStyle buf with
  | some style => do
    let buf ← setColor buf 0 len style
    some (buf, state)
  | none => some (buf, state)

/-! ## What cscope finds -/

/-- One turn of the loop of `cscope_colorize_line`, from `p` on: over the delimiters, then up to the next one. -/
def cscopeField (delim style : Nat) (buf : List Nat) (p : Nat) : Option (List Nat × Nat) := do
  let gap ← scanWhile (· = delim) (buf.drop (p + 1))
  let n ← scanWhile (· ≠ delim) (buf.drop (p + 1 + gap))
  let buf ← setColor buf (p + 1 + gap) n style
  some (buf, p + 1 + gap + n)

/-- `cscope_colorize_line`: its four turns, `CS_FILE`, `CS_LINE`, `CS_SYM` and `CS_CONTEXT`. The state is not touched. -/
def cscopeColorizeLine : ArrayColorize := fun buf _ state => do
  let c ← buf.head?
  if c = newline then some (buf, state)
  else do
    let (buf, p) ← cscopeField ' '.toNat qeStyleFunction buf 0
    let (buf, p) ← cscopeField ' '.toNat qeStyleString buf p
    let (buf, p) ← cscopeField ' '.toNat qeStyleType buf p
    let (buf, _) ← cscopeField newline qeStylePreprocess buf p
    some (buf, state)

end Hoe
