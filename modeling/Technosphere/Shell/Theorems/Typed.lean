import Technosphere.Shell.Theorems.Script
import Technosphere.Shell.Theorems.Text

open LexemParser (Readable parse_intercalate_iff)
open Line (endLexems)

namespace Redirected

def Line.Plain (line : Line) : Prop :=
  ∀ l ∈ line.lexems, l.type = .argument → Readable l

structure Typed where
  line       : Line
  background : Bool
  env        : Environment

namespace Typed

def lexems (t : Typed) : List Lexem :=
  t.line.lexems ++ endLexems t.background

def input (t : Typed) : String × Environment :=
  (" ".intercalate (t.lexems.map (·.lexem)), t.env)

variable {t : Typed} {l : Lexem} {sh : Shell} {launches : List Launch}

variable {shell : Shell} {ts : List Typed} {s : Session}

end Typed

end Redirected
