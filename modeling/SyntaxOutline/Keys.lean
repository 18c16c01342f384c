import SyntaxOutline.Action

/-! # Key bindings

A profile says which keys operate the outline: letters and signs, arrow keys, or both. Keys held
with Control or Alt are left to the host. A host may put bindings of its own in front, which see the
whole event. -/
namespace SyntaxOutline

inductive MediaKey where
  | play
  | pause
  | playPause
  | reverse
  | stop
  | fastForward
  | rewind
  | trackNext
  | trackPrevious
  | record
  | lowerVolume
  | raiseVolume
  | muteVolume
deriving DecidableEq, Repr

inductive ModifierKey where
  | leftShift
  | leftControl
  | leftAlt
  | leftSuper
  | leftHyper
  | leftMeta
  | rightShift
  | rightControl
  | rightAlt
  | rightSuper
  | rightHyper
  | rightMeta
  | thirdLevelShift
  | fifthLevelShift
deriving DecidableEq, Repr

inductive KeyCode where
  | character (value : Char)
  | function (number : Nat)
  | up
  | down
  | left
  | right
  | home
  | finish
  | pageUp
  | pageDown
  | enter
  | tab
  | backTab
  | backspace
  | delete
  | insert
  | null
  | escape
  | capsLock
  | scrollLock
  | numLock
  | printScreen
  | pause
  | menu
  | keypadBegin
  | media (key : MediaKey)
  | modifier (key : ModifierKey)
deriving DecidableEq, Repr

structure Modifiers where
  shift : Bool := false
  control : Bool := false
  alt : Bool := false
  superKey : Bool := false
  hyper : Bool := false
  metaKey : Bool := false
deriving DecidableEq, Repr

inductive KeyKind where
  | press
  | release
  | repeated
deriving DecidableEq, Repr

/-- Whether the key stands on the keypad, and which locks are on. -/
structure KeyState where
  keypad : Bool := false
  capsLock : Bool := false
  numLock : Bool := false
deriving DecidableEq, Repr

structure KeyEvent where
  code : KeyCode
  modifiers : Modifiers := {}
  kind : KeyKind := .press
  state : KeyState := {}
deriving DecidableEq, Repr

inductive Profile where
  | standard
  | vim
  | arrows
deriving DecidableEq, Repr

namespace Profile

def cycle : Profile → Profile
  | standard => vim
  | vim => arrows
  | arrows => standard

def name : Profile → String
  | standard => "default"
  | vim => "vim"
  | arrows => "arrows"

def takesCharacters (p : Profile) : Bool := p ≠ arrows

def takesArrows (p : Profile) : Bool := p ≠ vim

def onCharacter (p : Profile) : Char → Option Operation
  | 'k' => some .selectPrevious
  | 'j' => some .selectNext
  | 'h' => some .selectParent
  | 'l' => some .selectChild
  | 'g' => if p = vim then some .selectFirst else none
  | 'G' => if p = vim then some .selectLast else none
  | ' ' => some .toggleSubtree
  | '+' => some .expandAll
  | '*' => some .expandAll
  | '-' => some .collapseAll
  | _ => none

def onArrow (shifted : Bool) : KeyCode → Option Operation
  | .up => some .selectPrevious
  | .down => some .selectNext
  | .right => some (if shifted then .toggleSubtree else .selectChild)
  | .left => some (if shifted then .collapseAll else .selectParent)
  | _ => none

/-- The operation bound to a key. -/
def resolve (p : Profile) (key : KeyEvent) : Option Operation :=
  if key.modifiers.control || key.modifiers.alt then none
  else
    match key.code with
    | .character value => if p.takesCharacters then p.onCharacter value else none
    | .home | .pageUp => some .selectFirst
    | .finish | .pageDown => some .selectLast
    | .enter => some .toggle
    | code => if p.takesArrows then onArrow key.modifiers.shift code else none

/-- The action bound to a key, where the host's own bindings come first. -/
def resolveWith {κ : Type} (p : Profile) (custom : KeyEvent → Option κ) (key : KeyEvent) :
    Option (Action κ) :=
  match custom key with
  | some value => some (.custom value)
  | none => (p.resolve key).map .operate

end Profile

/-- Bindings given as a list, of which the first for a key counts. -/
def listedBinding {κ : Type} (bindings : List (KeyEvent × κ)) (key : KeyEvent) : Option κ :=
  bindings.lookup key

end SyntaxOutline
