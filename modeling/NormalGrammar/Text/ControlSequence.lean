/-!
# Control sequences

Text for a terminal can hold control characters, and sequences of characters that set a style or
carry data instead of being shown. This module takes them out, so that the text can be written
to a place that is no terminal. Text of shown characters alone stays as it is, and only shown
characters are left of any text.
-/

namespace NormalGrammar.Text

/-- What a sequence has come to. The names CSI, DCS and OSC are those of the standard, for a
control sequence, a device control string and an operating system command. -/
inductive ControlState where
  | ground
  | escape
  | escapeIntermediate
  | csi
  | dcsEntry
  | dcsParameter
  | dcsIntermediate
  | string
  | osc
deriving DecidableEq

namespace ControlState

/-- The code point of the character is between two others, or is one of them. -/
def within (first last : Nat) (c : Char) : Bool := first ≤ c.toNat && c.toNat ≤ last

/-- The state behind a character. An escape starts a new sequence and a cancel ends one in any
state. A string ends at the byte 9C, which the encoding of a character can contain. -/
def next (s : ControlState) (c : Char) : ControlState :=
  if c = '\x1b' then .escape
  else if c = '\x18' || c = '\x1a' then .ground
  else
    match s with
    | .ground => .ground
    | .escape =>
      match c with
      | '[' => .csi
      | ']' => .osc
      | 'P' => .dcsEntry
      | 'X' | '^' | '_' => .string
      | _ =>
        if within 0x20 0x2f c then .escapeIntermediate
        else if within 0x30 0x7e c then .ground else .escape
    | .escapeIntermediate => if within 0x30 0x7e c then .ground else .escapeIntermediate
    | .csi => if within 0x40 0x7e c then .ground else .csi
    | .dcsEntry =>
      if within 0x20 0x2f c then .dcsIntermediate
      else if within 0x30 0x3f c then .dcsParameter
      else if within 0x40 0x7e c then .string else .dcsEntry
    | .dcsParameter =>
      if within 0x20 0x2f c then .dcsIntermediate
      else if within 0x3c 0x7e c then .string else .dcsParameter
    | .dcsIntermediate => if within 0x30 0x7e c then .string else .dcsIntermediate
    | .string => if (String.utf8EncodeChar c).contains 0x9c then .ground else .string
    | .osc => if c = '\x07' then .ground else .osc

/-- Control characters inside the sequence act at once. -/
def acts : ControlState → Bool
  | .escape | .escapeIntermediate | .csi => true
  | _ => false

end ControlState

/-- The character sets the text apart: a tab, a newline, a form feed or a carriage return. -/
def isSpacing (c : Char) : Bool := c = '\t' || c = '\n' || c = '\x0c' || c = '\r'

/-- The character is part of shown text. -/
def isShown (c : Char) : Bool := (0x20 ≤ c.toNat && c != '\x7f') || isSpacing c

/-- The character is kept, in a run of shown text or in a state. A spacing character is also kept
inside a sequence that lets it act at once. -/
def isKept (inRun : Bool) (s : ControlState) (c : Char) : Bool :=
  if inRun || s = .ground then isShown c else s.acts && isSpacing c

/-- What is left of a text from a state on. A kept character starts a run of shown text. A run
lets the state stand, so that a sequence goes on behind it, unless a character beyond ASCII puts
an end to the sequence. -/
def stripFrom (inRun : Bool) (s : ControlState) : List Char → List Char
  | [] => []
  | c :: t =>
    if isKept inRun s c then
      c :: stripFrom true (if c.toNat < 0x80 then s else .ground) t
    else stripFrom false (s.next c) t

/-- The text without control characters and sequences. -/
def stripControls (t : List Char) : List Char := stripFrom false .ground t

theorem stripFrom_ground {t : List Char} (h : ∀ c ∈ t, isShown c) (inRun : Bool) :
    stripFrom inRun .ground t = t := by
  induction t generalizing inRun with
  | nil => rfl
  | cons c t ih =>
    have hc : isKept inRun .ground c := by simp [isKept, h c]
    simp [stripFrom, hc, ih fun d hd => h d (.tail _ hd)]

theorem stripControls_eq_self {t : List Char} (h : ∀ c ∈ t, isShown c) : stripControls t = t :=
  stripFrom_ground h false

theorem isShown_of_isKept {inRun : Bool} {s : ControlState} {c : Char} (h : isKept inRun s c) :
    isShown c := by
  unfold isKept at h
  split at h
  · exact h
  · simp only [Bool.and_eq_true] at h
    simp [isShown, h.2]

theorem isShown_of_mem_stripFrom {inRun : Bool} {s : ControlState} {t : List Char} {c : Char}
    (h : c ∈ stripFrom inRun s t) : isShown c := by
  induction t generalizing inRun s with
  | nil => simp [stripFrom] at h
  | cons d t ih =>
    rw [stripFrom] at h
    split at h
    · rename_i hd
      rcases List.mem_cons.1 h with rfl | h
      · exact isShown_of_isKept hd
      · exact ih h
    · exact ih h

theorem isShown_of_mem_stripControls {t : List Char} {c : Char} (h : c ∈ stripControls t) :
    isShown c := isShown_of_mem_stripFrom h

end NormalGrammar.Text
