import Mathlib.Data.List.Induction
import Mathlib.Logic.Function.Basic
import Nicenet.Message

/-!
# The commands of the session classes

`TCP_SESSION_COMMAND` and `KCP_SESSION_COMMAND` define a static object whose
constructor enters a function into the table of a session class. A session looks
a message up in the table of its class.
-/

namespace Nicenet

variable {ι κ : Type}

/-- `m_commands` of `TcpMessageParser` and of `KcpMessageParser`. -/
abbrev MessageParser (κ : Type) := UInt16 → Option κ

/-- `getTcpMessagerParse` and `getKcpMessagerParse`: the table of each class, which
is made when it is asked for. -/
abbrev MessageParsers (ι κ : Type) := ι → MessageParser κ

/-- The arguments of `TcpSessionCommand` and `KcpSessionCommand`. -/
structure SessionCommand (ι κ : Type) where
  info : ι
  command : UInt16
  func : κ
  deriving DecidableEq, Repr

section Registration

variable [DecidableEq ι]

/-- The constructor of a command. -/
def MessageParsers.enter (parsers : MessageParsers ι κ) (entry : SessionCommand ι κ) :
    MessageParsers ι κ :=
  Function.update parsers entry.info
    (Function.update (parsers entry.info) entry.command (some entry.func))

/-- The tables behind the constructors of a program, in the order in which they run. -/
def getMessagerParse (entries : List (SessionCommand ι κ)) : MessageParsers ι κ :=
  entries.foldl MessageParsers.enter fun _ _ => none

theorem enter_apply (parsers : MessageParsers ι κ) (entry : SessionCommand ι κ) (info : ι)
    (command : UInt16) :
    parsers.enter entry info command =
      if entry.info = info ∧ entry.command = command then some entry.func
      else parsers info command := by
  rw [MessageParsers.enter]
  by_cases same : entry.info = info
  · subst same
    rw [Function.update_self, Function.update_apply]
    by_cases equal : entry.command = command
    · rw [if_pos equal.symm, if_pos ⟨rfl, equal⟩]
    · rw [if_neg (Ne.symm equal), if_neg fun both => equal both.2]
  · rw [Function.update_of_ne (Ne.symm same), if_neg fun both => same both.1]

/-- The last command of a class and an id is the one that is found. -/
theorem getMessagerParse_apply (entries : List (SessionCommand ι κ)) (info : ι)
    (command : UInt16) :
    getMessagerParse entries info command =
      (entries.reverse.find? fun entry =>
        decide (entry.info = info ∧ entry.command = command)).map SessionCommand.func := by
  induction entries using List.reverseRecOn with
  | nil => rfl
  | append_singleton entries entry ih =>
      rw [getMessagerParse, List.foldl_append, ← getMessagerParse, List.foldl_cons,
        List.foldl_nil, enter_apply, ih, List.reverse_append, List.reverse_singleton,
        List.singleton_append]
      by_cases here : entry.info = info ∧ entry.command = command
      · simp only [if_pos here, List.find?_cons, decide_eq_true here, Option.map_some]
      · simp only [if_neg here, List.find?_cons, decide_eq_false here]

/-- A command that no later one replaces is found. -/
theorem getMessagerParse_of_mem {entries : List (SessionCommand ι κ)}
    (distinct : entries.Pairwise fun first second =>
      first.info ≠ second.info ∨ first.command ≠ second.command)
    {entry : SessionCommand ι κ} (member : entry ∈ entries) :
    getMessagerParse entries entry.info entry.command = some entry.func := by
  induction entries using List.reverseRecOn with
  | nil => exact absurd member List.not_mem_nil
  | append_singleton entries last ih =>
      obtain ⟨front, -, apart⟩ := List.pairwise_append.mp distinct
      rw [getMessagerParse, List.foldl_append, ← getMessagerParse, List.foldl_cons,
        List.foldl_nil, enter_apply]
      rcases List.mem_append.mp member with earlier | only
      · rw [if_neg, ih front earlier]
        rintro ⟨info, command⟩
        rcases apart entry earlier last List.mem_cons_self with other | other
        · exact other info.symm
        · exact other command.symm
      · rw [List.mem_singleton.mp only, if_pos ⟨rfl, rfl⟩]

end Registration

/-- `TcpSession::handleMessage`: the command that is started with the message, if the
session has a table and the table a command for the id. -/
def handleMessage (m_MessageParser : Option (MessageParser κ)) (msg : Message) :
    Option (κ × Message) := do
  let parser ← m_MessageParser
  let command ← parser msg.getMsgID
  some (command, msg)

end Nicenet
