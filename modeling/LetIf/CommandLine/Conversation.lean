/-
Conversations: a session that is held line by line, with the history of its lines. The history
lasts in a file from one conversation to the next.
-/
import LetIf.CommandLine.Line
import LetIf.Session

namespace LetIf

/-- The lines of the past, the oldest first. -/
abbrev History := List Text

namespace History

/-- The most lines that are kept. -/
def limit : Nat := 1000

/-- Adds a line, and forgets the oldest one if there are too many. -/
def push (h : History) (line : Text) : History :=
  if h.length < limit then h ++ [line] else h.drop (h.length + 1 - limit) ++ [line]

/-- Adds a line unless it repeats the last one. -/
def add (h : History) (line : Text) : History :=
  if h.getLast? = some line then h else h.push line

/-- Reads lines up to the first that is too long or is not valid UTF-8. -/
def ofLines (h : History) : List Line → History
  | [] => h
  | l :: rest => if l.whole && Text.isUtf8 l.text then (h.push l.text).ofLines rest else h

/-- The history in the bytes of a file. -/
def ofBytes (t : Text) : History := ofLines [] (Line.all t)

/-- The bytes of a history, a line feed after each line. -/
def bytes (h : History) : Text := h.flatMap fun line => line ++ [Line.feed]

end History

structure Conversation where
  session : Session
  history : History
  deriving DecidableEq, Repr

namespace Conversation

def prompt : Text := "exprc> "

/-- What a line leads to. -/
structure Turn where
  output : Text
  messages : Text
  /-- The conversation after the line. -/
  next : Conversation
  ended : Bool
  deriving DecidableEq, Repr

/-- What is said of a failure on a terminal. -/
def failureText : Session.Failure → Text
  | .refused e => e.message
  | e => e.message

/-- Answers one line. A line that is not blank enters the history first. -/
def answer [Engine.Runtime] (c : Conversation) (line : Text) : Turn :=
  let history := if (Text.trimBlank line).isEmpty then c.history else c.history.add line
  match c.session.eval line with
  | .ok (out, session) => ⟨if out.isEmpty then [] else out ++ "\n", [], ⟨session, history⟩, false⟩
  | .error .quit => ⟨[], [], ⟨c.session, history⟩, true⟩
  | .error e => ⟨[], failureText e ++ "\n", ⟨c.session, history⟩, false⟩

/-- Answers lines until one of them or their end ends the conversation. Before each line that is
asked for stands a prompt. -/
def answerAll [Engine.Runtime] (c : Conversation) : List Text → Turn
  | [] => ⟨prompt ++ "\n", [], c, true⟩
  | line :: rest =>
    let t := c.answer line
    if t.ended then { t with output := prompt ++ t.output }
    else
      let last := t.next.answerAll rest
      { last with
        output := prompt ++ t.output ++ last.output
        messages := t.messages ++ last.messages }

end Conversation

end LetIf
