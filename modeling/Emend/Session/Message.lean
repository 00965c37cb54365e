import Emend.Reconcile

namespace Emend

/-- The planner's answer: a message for the user, and edit instructions that do not depend on one
another. -/
structure Plan where
  message : Text := []
  instructions : List Text := []
deriving DecidableEq

structure EditRequest where
  snippets : List Snippet := []
  request : Text := []

/-- What a session tells its listener. Indexes are places of instructions in the plan. -/
inductive StreamMessage (α : Type)
  | progress (index : Nat) (text : Text)
  | plan (p : Plan)
  | change (index : Nat) (changes : List Change)
  | error (index : Option Nat) (message : Text) (detail : Option (ReconcileError α))

structure InstructionResult (α : Type) where
  index : Nat
  instruction : Text
  reconciliation : Reconciliation α
  error : Option Text

namespace StreamMessage

variable {α : Type}

def ofFailure [Numeral α] (index : Nat) (e : ReconcileError α) : StreamMessage α :=
  .error (some index) e.message (some e)

def index? : StreamMessage α → Option Nat
  | progress i _ | change i _ => some i
  | plan _ => none
  | error i _ _ => i

end StreamMessage

namespace Prompt

def planSystem : Text :=
  "You are an intelligent coding assistant.
You give the user a general message answering their request and, if they ask
for changes, a list of edit instructions that other bots will carry out in
parallel, one bot per instruction.

- Each edit instruction must be detailed and name the file it applies to.
- Instructions must be independent of each other and must never overlap.
- Do not edit any code yourself.

Output your response as JSON in exactly this format:
\x7b
    \"message\": \"A message to the user describing your changes.\",
    \"editInstructions\": [\"A single edit instruction that can be followed.\"]
\x7d".toList

def formatFile (f : Snapshot) : Text :=
  '[' :: f.path ++ "]\n```\n".toList ++ f.content ++ "\n```".toList

def formatFiles (files : FileSet) : Text := ['\n', '\n'].intercalate (files.map formatFile)

def planUser (files : FileSet) (request : Text) : Text :=
  "# Code snippets\n\n".toList ++ formatFiles files ++ "\n\n# Request\n\n".toList ++ request

def editSystem (format : EditFormat) (directory : Text) : Text :=
  "You are a diligent coding assistant that edits code to follow a single instruction.
Only output the edit, never leave placeholder comments instead of code.

".toList ++ format.instructions directory

def editUser (files : FileSet) (instruction : Text) : Text :=
  "# Code snippets\n\n".toList ++ formatFiles files ++ "\n\n# Instruction\n\n".toList ++ instruction

end Prompt

end Emend
