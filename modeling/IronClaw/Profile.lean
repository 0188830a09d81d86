import Mathlib.Data.Rat.Defs

/-!
# The psychographic profile

What `profile.rs` makes of a profile: the test that it says anything, the text
for `USER.md`, the assistant's directives and the heartbeat checklist. Fields
that nothing reads are left out, and the JSON reader that fills a profile is
not part of the program. A confidence is a finite double, so it is a rational
number.
-/

set_option autoImplicit false

namespace IronClaw.Profile

structure CommunicationPreferences where
  detailLevel : String
  formality : String
  tone : String
  socialEnergy : String
  decisionMaking : String
  pace : String
  responseSpeed : String

inductive UserCohort where
  | busyProfessional
  | newParent
  | student
  | elder
  | other
  deriving DecidableEq

def UserCohort.display : UserCohort → String
  | .busyProfessional => "busy professional"
  | .newParent => "new parent"
  | .student => "student"
  | .elder => "elder"
  | .other => "general"

structure CohortClassification where
  cohort : UserCohort
  confidence : ℕ

structure BehaviorPatterns where
  painPoints : List String
  strengths : List String

structure AssistancePreferences where
  proactivity : String
  focusAreas : List String
  goals : List String
  interactionStyle : String
  notificationPreferences : String

structure ContextualInfo where
  profession : Option String
  interests : List String
  lifeStage : Option String

structure InteractionPreferences where
  proactivityStyle : String
  feedbackStyle : String

structure PsychographicProfile where
  preferredName : String
  communication : CommunicationPreferences
  cohort : CohortClassification
  behavior : BehaviorPatterns
  supportStyle : String
  assistance : AssistancePreferences
  context : ContextualInfo
  primaryValues : List String
  interactionPreferences : InteractionPreferences
  confidence : ℚ
  updatedAt : String

def join (sep : String) (parts : List String) : String := sep.intercalate parts

def lineIf (cond : Bool) (line : String) : List String := if cond then [line] else []

def listLine (label : String) (items : List String) : List String :=
  lineIf (!items.isEmpty) (label ++ join ", " items)

def optionLine (label : String) (item : Option String) : List String :=
  (item.map (fun text => label ++ text)).toList

namespace PsychographicProfile

def isPopulated (p : PsychographicProfile) : Bool :=
  p.preferredName ≠ "" || p.context.profession.isSome || !p.assistance.goals.isEmpty

def communicationLine (p : PsychographicProfile) : String :=
  "**Communication**: " ++ p.communication.tone ++ " tone, " ++ p.communication.detailLevel ++
    " detail, " ++ p.communication.formality ++ " formality, " ++ p.communication.pace ++ " pace" ++
    (if p.communication.responseSpeed ≠ "unknown" then
      ", " ++ p.communication.responseSpeed ++ " response speed" else "")

def cohortLine (p : PsychographicProfile) : String :=
  "**User type**: " ++ p.cohort.cohort.display ++
    (if 0 < p.cohort.confidence then
      " (" ++ toString p.cohort.confidence ++ "% confidence)" else "")

def assistanceLines (p : PsychographicProfile) : String :=
  "\n## Assistance Preferences\n\n- **Proactivity**: " ++ p.assistance.proactivity ++
    "\n- **Interaction style**: " ++ p.assistance.interactionStyle ++
    (if p.assistance.notificationPreferences ≠ "moderate" then
      "\n- **Notifications**: " ++ p.assistance.notificationPreferences else "")

def toUserMd (p : PsychographicProfile) : String :=
  join "\n" (["# User Profile\n"]++
    lineIf (p.preferredName ≠ "") ("**Name**: " ++ p.preferredName ++ "\n")++
    [p.communicationLine]++
    lineIf (p.communication.decisionMaking ≠ "unknown")
      ("**Decision style**: " ++ p.communication.decisionMaking)++
    lineIf (p.communication.socialEnergy ≠ "unknown")
      ("**Social energy**: " ++ p.communication.socialEnergy)++
    lineIf (p.cohort.cohort ≠ .other) p.cohortLine++
    optionLine "**Profession**: " p.context.profession++
    optionLine "**Life stage**: " p.context.lifeStage++
    listLine "**Interests**: " p.context.interests++
    listLine "**Goals**: " p.assistance.goals++
    listLine "**Focus areas**: " p.assistance.focusAreas++
    listLine "**Strengths**: " p.behavior.strengths++
    listLine "**Pain points**: " p.behavior.painPoints++
    listLine "**Core values**: " p.primaryValues++
    [p.assistanceLines]++
    lineIf (p.interactionPreferences.feedbackStyle ≠ "direct")
      ("- **Feedback style**: " ++ p.interactionPreferences.feedbackStyle)++
    lineIf (p.supportStyle ≠ "unknown") ("- **Support style**: " ++ p.supportStyle))

def name (p : PsychographicProfile) : String :=
  if p.preferredName = "" then "the user" else p.preferredName

def proactivityInstruction (p : PsychographicProfile) : String :=
  if p.assistance.proactivity = "high" then
    "Proactively suggest actions, check in regularly, and anticipate needs."
  else if p.assistance.proactivity = "low" then
    "Wait for explicit requests. Minimize unsolicited suggestions."
  else "Offer suggestions when relevant but don't overwhelm."

def toAssistantDirectives (p : PsychographicProfile) : String :=
  join "\n" (["# Assistant Directives\n", "Based on " ++ p.name ++ "'s profile:\n",
      "- **Proactivity**: " ++ p.assistance.proactivity ++ " -- " ++ p.proactivityInstruction,
      "- **Communication**: " ++ p.communication.tone ++ " tone, " ++
        p.communication.detailLevel ++ " detail level",
      "- **Decision support**: " ++ p.communication.decisionMaking ++ " style"]++
    lineIf (p.communication.responseSpeed ≠ "unknown")
      ("- **Response pacing**: " ++ p.communication.responseSpeed ++ " (match this energy)")++
    lineIf (p.interactionPreferences.feedbackStyle ≠ "direct")
      ("- **Feedback style**: " ++ p.interactionPreferences.feedbackStyle)++
    lineIf (p.assistance.notificationPreferences ≠ "moderate" &&
        p.assistance.notificationPreferences ≠ "unknown")
      ("- **Notification frequency**: " ++ p.assistance.notificationPreferences)++
    listLine "- **Focus areas**: " p.assistance.focusAreas++
    listLine "- **Goals to support**: " p.assistance.goals++
    listLine "- **Pain points to address**: " p.behavior.painPoints++
    ["", "Start conservative with autonomy — ask before taking actions that affect " ++
      "others or the outside world. Increase autonomy as trust grows."])

def toHeartbeatMd (p : PsychographicProfile) : String :=
  "# Heartbeat Checklist\n\n" ++
    join "\n" (["- [ ] Check if " ++ p.name ++ " has any pending tasks or reminders",
        "- [ ] Review today's schedule and flag conflicts",
        "- [ ] Check for messages that need follow-up"]++
      p.assistance.focusAreas.map (fun area => "- [ ] Check on progress in: " ++ area)) ++
    "\n\nStay quiet during 23:00-08:00 unless urgent.\n" ++
    "If nothing needs attention, reply HEARTBEAT_OK."

def summary (p : PsychographicProfile) : String :=
  "## Interaction Style\n\n" ++ p.cohort.cohort.display ++ " | " ++ p.communication.tone ++
    " tone | " ++ p.communication.detailLevel ++ " detail | " ++ p.assistance.proactivity ++
    " proactivity"

def personalization (p : PsychographicProfile) : String :=
  "## Personalization\n\nCommunication: " ++ p.communication.tone ++ " tone, " ++
    p.communication.formality ++ " formality, " ++ p.communication.detailLevel ++ " detail, " ++
    p.communication.pace ++ " pace" ++
    join "" (lineIf (p.communication.responseSpeed ≠ "unknown")
        (", " ++ p.communication.responseSpeed ++ " response speed")++
      lineIf (p.communication.decisionMaking ≠ "unknown")
        (", " ++ p.communication.decisionMaking ++ " decision-making")++
      ["."]++
      lineIf (p.interactionPreferences.feedbackStyle ≠ "direct")
        ("\nFeedback style: " ++ p.interactionPreferences.feedbackStyle ++ ".")++
      lineIf (p.interactionPreferences.proactivityStyle ≠ "reactive")
        ("\nProactivity style: " ++ p.interactionPreferences.proactivityStyle ++ ".")++
      lineIf (p.assistance.notificationPreferences ≠ "moderate" &&
          p.assistance.notificationPreferences ≠ "unknown")
        ("\nNotification preference: " ++ p.assistance.notificationPreferences ++ ".")++
      lineIf (!p.assistance.goals.isEmpty)
        ("\nActive goals: " ++ join ", " p.assistance.goals ++ ".")++
      lineIf (!p.behavior.painPoints.isEmpty)
        ("\nKnown pain points: " ++ join ", " p.behavior.painPoints ++ "."))

/-- `0.6` as a double. -/
def sureEnough : ℚ := 5404319552844595/9007199254740992

end PsychographicProfile

end IronClaw.Profile
