/-! Text without what a terminal would obey instead of showing it. -/
namespace LoxLexis.Text

/-- Where in a control sequence a text stands. A sequence begins with an escape. It may go on with
details, with parameters in brackets, with a command to the system up to a bell, or with a string of
data for a device, headed by parameters and details. Text that shows can interrupt it. -/
inductive ControlState
  | outside
  | escape
  | escapeDetails
  | parameters
  | systemCommand
  | deviceHeader
  | deviceParameters
  | deviceDetails
  | deviceData
  | interrupted (sequence : ControlState)
deriving DecidableEq, Repr

def codeWithin (first last : Nat) (c : Char) : Bool := first ≤ c.toNat && c.toNat ≤ last

def isSpaceControl (c : Char) : Bool := c == '\t' || c == '\n' || c == '\x0c' || c == '\r'

/-- The byte 0x9C ends data, even inside the encoding of a character: a terminal reads bytes. -/
def endsData (c : Char) : Bool := (String.utf8EncodeChar c).contains 0x9c

/-- Whether space that shows inside a sequence ends it, as it does in a text, or interrupts it only
for as long as ASCII characters follow that show, as it does on a stream. -/
inductive SpaceInside
  | ends
  | interrupts
deriving DecidableEq, Repr

def SpaceInside.next (rule : SpaceInside) (sequence : ControlState) : ControlState :=
  match rule with
  | .ends => .outside
  | .interrupts => .interrupted sequence

/-- What follows on one character, and whether it shows. Space shows also inside a sequence, but not
among data or in a command to the system. -/
def controlStep (rule : SpaceInside) (state : ControlState) (c : Char) : ControlState × Bool :=
  if c == '\x1b' then (.escape, false)
  else if c == '\x18' || c == '\x1a' then (.outside, false)
  else
    match state with
    | .outside => (.outside, (0x20 ≤ c.toNat && c != '\x7f') || isSpaceControl c)
    | .escape =>
      if isSpaceControl c then (rule.next state, true)
      else if c == '[' then (.parameters, false)
      else if c == ']' then (.systemCommand, false)
      else if c == 'P' then (.deviceHeader, false)
      else if c == 'X' || c == '^' || c == '_' then (.deviceData, false)
      else if codeWithin 0x20 0x2f c then (.escapeDetails, false)
      else if codeWithin 0x30 0x7e c then (.outside, false)
      else (.escape, false)
    | .escapeDetails =>
      if isSpaceControl c then (rule.next state, true)
      else if codeWithin 0x30 0x7e c then (.outside, false)
      else (.escapeDetails, false)
    | .parameters =>
      if isSpaceControl c then (rule.next state, true)
      else if codeWithin 0x40 0x7e c then (.outside, false)
      else (.parameters, false)
    | .systemCommand => (if c == '\x07' then .outside else .systemCommand, false)
    | .deviceHeader =>
      if codeWithin 0x20 0x2f c then (.deviceDetails, false)
      else if codeWithin 0x30 0x3f c then (.deviceParameters, false)
      else if codeWithin 0x40 0x7e c then (.deviceData, false)
      else (.deviceHeader, false)
    | .deviceParameters =>
      if codeWithin 0x20 0x2f c then (.deviceDetails, false)
      else if codeWithin 0x3c 0x7e c then (.deviceData, false)
      else (.deviceParameters, false)
    | .deviceDetails => (if codeWithin 0x30 0x7e c then .deviceData else .deviceDetails, false)
    | .deviceData => (if endsData c then .outside else .deviceData, false)
    | .interrupted sequence =>
      if isSpaceControl c || codeWithin 0x20 0x7e c then (.interrupted sequence, true)
      else if 0x80 ≤ c.toNat then (.outside, true)
      else (sequence, false)

def markShown (rule : SpaceInside) (state : ControlState) : List Char → List (Char × Bool)
  | [] => []
  | c :: rest =>
    let step := controlStep rule state c
    (c, step.2) :: markShown rule step.1 rest

def withoutControls (rule : SpaceInside) (text : String) : String :=
  String.ofList (((markShown rule .outside text.toList).filter (·.2)).map (·.1))

theorem map_fst_markShown (rule : SpaceInside) (state : ControlState) (text : List Char) :
    (markShown rule state text).map (·.1) = text := by
  induction text generalizing state with
  | nil => rfl
  | cons c rest ih => simp [markShown, ih]

end LoxLexis.Text
