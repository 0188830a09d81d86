import IronClaw.LlmMessage
import IronClaw.LeakScan
import IronClaw.ToolOutput

/-!
# The safety layer

`SafetyLayer::sanitize_tool_output` cuts a long output, scans it for secrets,
checks it against the policy and escapes it when the sanitizer finds something
critical; `process_tool_result` hands the wrapped result, or the text of an
error, to the language model. What a regular expression finds and how text is
lower-cased is given; the parts of the sanitizer that look for fixed phrases
are a search without regard to the case of ASCII letters.
-/

set_option autoImplicit false

namespace IronClaw.SafetyLayer
open IronClaw.LlmMessage IronClaw.LeakScan IronClaw.ToolOutput Lib.Text Lib.Search

inductive Severity where
  | low
  | medium
  | high
  | critical
  deriving DecidableEq

def Severity.value : Severity → ℕ
  | .low => 1
  | .medium => 2
  | .high => 3
  | .critical => 4

inductive PolicyAction where
  | warn
  | block
  | review
  | sanitize
  deriving DecidableEq

structure PolicyRule where
  id : String
  description : String
  pattern : String
  severity : Severity
  action : PolicyAction
  deriving DecidableEq

def defaultPolicy : List PolicyRule :=
  [⟨"system_file_access", "Attempt to access system files",
      "(?i)(/etc/passwd|/etc/shadow|\\.ssh/|\\.aws/credentials)", .critical, .block⟩,
   ⟨"crypto_private_key", "Potential cryptocurrency private key",
      "(?i)(private.?key|seed.?phrase|mnemonic).{0,20}[0-9a-f]{64}", .critical, .block⟩,
   ⟨"sql_pattern", "SQL-like pattern detected",
      "(?i)(DROP\\s+TABLE|DELETE\\s+FROM|INSERT\\s+INTO|UPDATE\\s+\\w+\\s+SET)", .medium, .warn⟩,
   ⟨"shell_injection", "Potential shell command injection",
      "(?i)(;\\s*rm\\s+-rf|;\\s*curl\\s+.*\\|\\s*sh)", .critical, .block⟩,
   ⟨"excessive_urls", "Excessive number of URLs detected",
      "(https?://[^\\s]+\\s*){10,}", .low, .warn⟩,
   ⟨"encoded_exploit", "Potential encoded exploit payload",
      "(?i)(base64_decode|eval\\s*\\(\\s*base64|atob\\s*\\()", .high, .sanitize⟩,
   ⟨"obfuscated_string", "Potential obfuscated content", "[^\\s]{500,}", .medium, .warn⟩]

structure InjectionWarning where
  pattern : String
  severity : Severity
  location : ℕ × ℕ
  description : String
  deriving DecidableEq

structure SanitizedOutput where
  content : List Char
  warnings : List InjectionWarning
  wasModified : Bool
  deriving DecidableEq

structure PatternInfo where
  pattern : String
  severity : Severity
  description : String
  deriving DecidableEq

def injectionPatterns : List PatternInfo :=
  [⟨"ignore previous", .high, "Attempt to override previous instructions"⟩,
   ⟨"ignore all previous", .critical, "Attempt to override all previous instructions"⟩,
   ⟨"disregard", .medium, "Potential instruction override"⟩,
   ⟨"forget everything", .high, "Attempt to reset context"⟩,
   ⟨"you are now", .high, "Attempt to change assistant role"⟩,
   ⟨"act as", .medium, "Potential role manipulation"⟩,
   ⟨"pretend to be", .medium, "Potential role manipulation"⟩,
   ⟨"system:", .critical, "Attempt to inject system message"⟩,
   ⟨"assistant:", .high, "Attempt to inject assistant response"⟩,
   ⟨"user:", .high, "Attempt to inject user message"⟩,
   ⟨"<|", .critical, "Potential special token injection"⟩,
   ⟨"|>", .critical, "Potential special token injection"⟩,
   ⟨"[INST]", .critical, "Potential instruction token injection"⟩,
   ⟨"[/INST]", .critical, "Potential instruction token injection"⟩,
   ⟨"new instructions", .high, "Attempt to provide new instructions"⟩,
   ⟨"updated instructions", .high, "Attempt to update instructions"⟩,
   ⟨"```system", .high, "Potential code block instruction injection"⟩,
   ⟨"```bash\nsudo", .medium, "Potential dangerous command injection"⟩]

structure RegexPattern where
  regex : String
  name : String
  severity : Severity
  description : String
  deriving DecidableEq

def regexPatterns : List RegexPattern :=
  [⟨"(?i)base64[:\\s]+[A-Za-z0-9+/=]{50,}", "base64_payload", .medium,
      "Potential encoded payload"⟩,
   ⟨"(?i)eval\\s*\\(", "eval_call", .high, "Potential code evaluation attempt"⟩,
   ⟨"(?i)exec\\s*\\(", "exec_call", .high, "Potential code execution attempt"⟩,
   ⟨"\\x00", "null_byte", .critical, "Null byte injection attempt"⟩]

structure SafetyConfig where
  maxOutputLength : ℕ
  injectionCheckEnabled : Bool
  deriving DecidableEq

def linesFrom : List Char → List Char → List (List Char)
  | line, [] => if line = [] then [] else [line.reverse]
  | line, c::cs =>
    if c = '\n' then
      (if line.head? = some '\r' then line.tail else line).reverse::linesFrom [] cs
    else linesFrom (c::line) cs

def lines (text : List Char) : List (List Char) := linesFrom [] text

def escapeTokens (content : List Char) : List Char :=
  let escaped := replace ['<', '|'] ['\\', '<', '|'] content
  let escaped := replace ['|', '>'] ['|', '\\', '>'] escaped
  let escaped := replace ['[', 'I', 'N', 'S', 'T', ']'] ['\\', '[', 'I', 'N', 'S', 'T', ']'] escaped
  replace ['[', '/', 'I', 'N', 'S', 'T', ']'] ['\\', '[', '/', 'I', 'N', 'S', 'T', ']'] escaped

def removeNul (content : List Char) : List Char := content.filter (fun c => c ≠ '\x00')

def roleMarkers : List (List Char) :=
  ["system:".toList, "user:".toList, "assistant:".toList]

def escapedMark : List Char := "[ESCAPED] ".toList

section

variable (compile : String → List Char → List Match)

def checkPolicy (content : List Char) : List PolicyRule :=
  defaultPolicy.filter (fun rule => compile rule.pattern content ≠ [])

def phraseWarnings (content : List Char) : List InjectionWarning :=
  (findWords (injectionPatterns.map (fun p => p.pattern.toList.map Char.toLower))
    (content.map Char.toLower)).filterMap (fun m =>
      injectionPatterns[m.pattern]?.map (fun p =>
        ⟨p.pattern, p.severity, (m.start, m.stop), p.description⟩))

def regexWarnings (content : List Char) : List InjectionWarning :=
  regexPatterns.flatMap (fun p => (compile p.regex content).map (fun m =>
    ⟨p.name, p.severity, (m.start, m.stop), p.description⟩))

def sanitizerWarnings (content : List Char) : List InjectionWarning :=
  (phraseWarnings content++regexWarnings compile content).insertionSort
    (fun a b => b.severity.value ≤ a.severity.value)

def hasCritical (content : List Char) : Bool :=
  (sanitizerWarnings compile content).any (fun w => w.severity = .critical)

variable (toLowercase : List Char → List Char)

def isRoleLine (line : List Char) : Bool :=
  roleMarkers.any (fun marker => marker.isPrefixOf (toLowercase (line.dropWhile isWhitespace)))

def escapeLine (line : List Char) : List Char :=
  if isRoleLine toLowercase line then escapedMark++line else line

def escapeLines (content : List Char) : List Char :=
  ['\n'].intercalate ((lines content).map (escapeLine toLowercase))

def escapeContent (content : List Char) : List Char :=
  escapeLines toLowercase (removeNul (escapeTokens content))

def sanitize (content : List Char) : SanitizedOutput :=
  if hasCritical compile content then
    ⟨escapeContent toLowercase content, sanitizerWarnings compile content, true⟩
  else ⟨content, sanitizerWarnings compile content, false⟩

def truncationNotice (cut length : ℕ) : List Char :=
  "\n\n[... truncated: showing ".toList++(toString cut).toList++['/']++(toString length).toList++
    " bytes. Use the json tool with source_tool_call_id to query the full output.]".toList

def leakDetector : LeakDetector := withPatterns (defaultPatterns compile)

def sanitizeToolOutput (config : SafetyConfig) (toolName : String) (output : List Char) :
    SanitizedOutput :=
  if config.maxOutputLength < byteLen output then
    let cut := floorBoundary output config.maxOutputLength
    ⟨sliceTo output cut++truncationNotice cut (byteLen output),
     [⟨"output_too_large", .low, (0, byteLen output),
       s!"Output from tool '{toolName}' was truncated due to size"⟩], true⟩
  else match scanAndClean (leakDetector compile) output with
    | .error _ => ⟨"[Output blocked due to potential secret leakage]".toList, [], true⟩
    | .ok content =>
      let violations := checkPolicy compile content
      if violations.any (fun rule => rule.action = .block) then
        ⟨"[Output blocked by safety policy]".toList, [], true⟩
      else
        let forceSanitize := violations.any (fun rule => rule.action = .sanitize)
        let wasModified := content ≠ output || forceSanitize
        if config.injectionCheckEnabled || forceSanitize then
          let sanitized := sanitize compile toLowercase content
          { sanitized with wasModified := sanitized.wasModified || wasModified }
        else ⟨content, [], wasModified⟩

def processToolResult (config : SafetyConfig) (toolName toolCallId : String)
    (result : Except String String) : Option (String × ChatMessage) :=
  match result with
  | .ok output =>
    let sanitized := sanitizeToolOutput compile toLowercase config toolName output.toList
    (wrapForLlm toolName (String.ofList sanitized.content)).map (fun content =>
      (content, ChatMessage.toolResult toolCallId toolName content))
  | .error e =>
    some ("Error: " ++ e, ChatMessage.toolResult toolCallId toolName ("Error: " ++ e))

end

end IronClaw.SafetyLayer
