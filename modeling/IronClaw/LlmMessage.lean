import IronClaw.JsonValue

/-!
# Conversation messages

The message type of `llm/provider.rs` and its constructors. A message with an
empty batch of tool calls carries no batch at all.
-/

set_option autoImplicit false

namespace IronClaw.LlmMessage
open IronClaw.JsonValue

abbrev Uuid := BitVec 128

inductive Role where
  | system
  | user
  | assistant
  | tool
  deriving DecidableEq

structure ImageUrl where
  url : String
  detail : Option String
  deriving DecidableEq

inductive ContentPart where
  | text (text : String)
  | imageUrl (image : ImageUrl)
  deriving DecidableEq

structure ToolCall where
  id : String
  name : String
  arguments : Value
  deriving DecidableEq

structure ChatMessage where
  role : Role
  content : String
  contentParts : List ContentPart
  toolCallId : Option String
  name : Option String
  toolCalls : Option (List ToolCall)
  deriving DecidableEq

def ChatMessage.user (content : String) : ChatMessage :=
  ⟨.user, content, [], none, none, none⟩

def ChatMessage.userWithParts (content : String) (parts : List ContentPart) : ChatMessage :=
  ⟨.user, content, parts, none, none, none⟩

def ChatMessage.assistant (content : String) : ChatMessage :=
  ⟨.assistant, content, [], none, none, none⟩

def ChatMessage.assistantWithToolCalls (content : Option String) (toolCalls : List ToolCall) :
    ChatMessage :=
  ⟨.assistant, content.getD "", [], none, none,
    if toolCalls.isEmpty then none else some toolCalls⟩

def ChatMessage.toolResult (toolCallId name content : String) : ChatMessage :=
  ⟨.tool, content, [], some toolCallId, some name, none⟩

theorem toolResult_role (toolCallId name content : String) :
    (ChatMessage.toolResult toolCallId name content).role = .tool := rfl

end IronClaw.LlmMessage
