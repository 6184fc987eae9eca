import Hoe.Theorems.Text
import Hoe.Theorems.Undo
import Hoe.Theorems.Save
import Hoe.Theorems.SaveLoad
import Hoe.Theorems.Notify
import Hoe.Theorems.Saved
import Hoe.Theorems.Charsets
import Hoe.Theorems.Characters
import Hoe.Theorems.Counts
import Hoe.Theorems.Columns
import Hoe.Theorems.Goto
import Hoe.Theorems.Bol
import Hoe.Theorems.Quit
import Hoe.Theorems.Isolation
import Hoe.Theorems.Tiling
import Hoe.Theorems.DeleteWindow
import Hoe.Theorems.ActiveWindow
import Hoe.Theorems.Redraw
import Hoe.Editor
import Hoe.Theorems.Terminal
import Hoe.Theorems.Colorize
import Hoe.Theorems.KeyNames
import Hoe.Theorems.KeyContext
import Hoe.Theorems.Rebinding
import Hoe.Theorems.Macros
import Hoe.Theorems.CursorOnScreen
import Hoe.Theorems.Shell
import Hoe.Theorems.OneBuffer
import Hoe.Theorems.BufferNames
import Hoe.Theorems.Prompts
import Hoe.Theorems.References
import Hoe.Theorems.EveryOffset
import Hoe.Theorems.Search
import Hoe.Theorems.QueryReplace
import Hoe.Theorems.KillRing
import Hoe.Theorems.TrailingWhitespace
import Hoe.Theorems.Transpose
import Hoe.Theorems.KillRect
import Hoe.Theorems.InsertRect
import Hoe.Theorems.FillParagraph
import Hoe.Theorems.Parens
import Hoe.Theorems.WordAtPoint
import Hoe.Theorems.ChangeCase
import Hoe.Theorems.KillYank
import Hoe.Theorems.CColors
import Hoe.Theorems.ModeColors
import Hoe.Theorems.IndentColumns
import Hoe.Theorems.IndentMargin
import Hoe.Theorems.Glyphs
import Hoe.Theorems.LineWrap
import Hoe.Theorems.WordWrap
import Hoe.Theorems.Clipping
import Hoe.Theorems.WindowSizes
import Hoe.Theorems.EscParams
import Hoe.Theorems.CursorAddress
import Hoe.Theorems.TtyInput
import Hoe.Theorems.StatusLine
import Hoe.Theorems.HexTyping
import Hoe.Theorems.Compose
import Hoe.Theorems.DetectCharset
import Hoe.Theorems.LargeFiles
import Hoe.Theorems.FailedOpen
import Hoe.Theorems.NumericArg
import Hoe.Theorems.ConfigFile
import Hoe.Theorems.Completion
import Hoe.Theorems.MinibufferHistory
import Hoe.Theorems.CanonizePath
import Hoe.Cscope
import Hoe.Theorems.CscopeMarks
import Hoe.Theorems.CscopeOutput
import Hoe.CompileError
import Hoe.Theorems.NextError
import Hoe.ListMode
import Hoe.Theorems.BufferListKill
import Hoe.Lemmas.ListMode
import Hoe.Theorems.Dired
import Hoe.Theorems.ReadOnly
import Hoe.Theorems.Scrolling
import Hoe.Theorems.ShellProcess
import Hoe.Theorems.TextRows
