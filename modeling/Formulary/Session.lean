import Formulary.Log
import Formulary.Node.Outline

/-!
Sessions: every line is read as a statement and answered on its own. A session ends with its lines or
at a line that asks to leave.
-/
namespace Formulary

/-- What is shown of a tree: its outline or its text on one line. -/
def showNode (tree : Bool) (n : Node) : String :=
  if tree then
    match n.outline with
    | .ok shown => shown
    | .error fault => fault.message
  else n.inline

/-- A fault as it is shown, with the line in question below it. -/
def showReport (r : Report) (text : List Char) : String :=
  let context := r.context text
  "Parse error: " ++ r.text ++ "\n" ++ (if context.isEmpty then "" else context ++ "\n")

/-- What a line brings about on each channel. -/
structure Reply where
  output : String
  errors : String
  log : List Record
deriving DecidableEq, Repr

namespace Reply

def silent : Reply := ⟨"", "", []⟩

/-- The reply to a text that is read as a statement. -/
def ofText (tree : Bool) (text : List Char) : Reply :=
  match parseStatement text with
  | .ok s => ⟨showNode tree s.toNode ++ "\n", "", []⟩
  | .error r =>
    let report := r.report text
    ⟨"", showReport report text, [.rejected report]⟩

end Reply

namespace Session

def banner : String := "texcalc interactive parser\nType 'exit' to leave.\n"

def promptText : String := ">> "

inductive Request where
  | nothing
  | leave
  | statement (text : List Char)
deriving DecidableEq, Repr

/-- White space at the ends of a line does not count. -/
def request (line : String) : Request :=
  let text := trim line.toList
  if text.isEmpty then .nothing
  else if text = "exit".toList || text = "quit".toList then .leave
  else .statement text

/-- The replies to the lines of a session up to its end. The flag says whether the parser is built; it
is built for the first statement. -/
def replies (settings : Settings) (tree : Bool) (built : Bool) : List String → List Reply
  | [] => []
  | line :: lines =>
    match request line with
    | .leave => []
    | .nothing => .silent :: replies settings tree built lines
    | .statement text =>
      let reply := Reply.ofText tree text
      let log := if built then reply.log else .building settings :: reply.log
      { reply with log } :: replies settings tree true lines

/-- What is on the channels whenever the next line is asked for, and after the last: a prompt belongs
to what stands before it. -/
def transcript (settings : Settings) (tree : Bool) (lines : List String) : List Reply :=
  ⟨banner ++ promptText, "", []⟩
    :: (replies settings tree false lines).map (fun r => { r with output := r.output ++ promptText })
    ++ [.silent]

end Session
end Formulary
