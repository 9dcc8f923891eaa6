/-!
Wildcard patterns over whole paths, separators included.

`?` is any character, `*` any text, `[...]` one character of a set and `[!...]` one outside it. `**` is a whole
component: followed by a separator it stands for nothing or for directories, at the end for any rest.
-/

namespace SiteQuery

namespace Glob

/-- The characters from `low` to `high`. -/
structure Range where
  low : Char
  high : Char
deriving DecidableEq, Repr

def Range.contains (range : Range) (c : Char) : Bool := range.low ≤ c && c ≤ range.high

inductive Token where
  | literal (c : Char)
  | any
  | oneOf (ranges : List Range)
  | noneOf (ranges : List Range)
  | sequence
  | directories
deriving DecidableEq, Repr

inductive Fault where
  | tooManyStars (position : Nat)
  | sharedComponent (position : Nat)
  | unfinishedSet (position : Nat)
deriving DecidableEq, Repr

namespace Fault

def position : Fault → Nat
  | tooManyStars position => position
  | sharedComponent position => position
  | unfinishedSet position => position

def reason : Fault → String
  | tooManyStars _ => "wildcards are either regular \x60*\x60 or recursive \x60**\x60"
  | sharedComponent _ => "recursive wildcards must form a single path component"
  | unfinishedSet _ => "invalid range pattern"

def message (fault : Fault) : String :=
  s!"Pattern syntax error near position {fault.position}: {fault.reason}"

end Fault

/-- The ranges written between brackets; a hyphen that does not stand between two characters is itself. -/
def rangesOf : List Char → List Range
  | low :: '-' :: high :: rest => ⟨low, high⟩ :: rangesOf rest
  | c :: rest => ⟨c, c⟩ :: rangesOf rest
  | [] => []

/-- The members of a set and what follows it; the first member may be the closing bracket itself. -/
def setBody? : List Char → Option (List Char × List Char)
  | [] => none
  | first :: rest =>
    match rest.dropWhile (· != ']') with
    | [] => none
    | _ :: after => some (first :: rest.takeWhile (· != ']'), after)

/-- A set, from behind its opening bracket. -/
def set? : List Char → Option (Token × List Char)
  | '!' :: text => (setBody? text).map fun (members, after) => (.noneOf (rangesOf members), after)
  | text => (setBody? text).map fun (members, after) => (.oneOf (rangesOf members), after)

theorem length_setBody? {text members after : List Char} (h : setBody? text = some (members, after)) :
    after.length < text.length := by
  unfold setBody? at h
  split at h
  · simp at h
  · rename_i first rest
    split at h
    · simp at h
    · rename_i closing found equal
      simp only [Option.some.injEq, Prod.mk.injEq] at h
      have := (List.dropWhile_sublist (· != ']') (l := rest)).length_le
      rw [equal] at this
      simp only [List.length_cons] at this ⊢
      rw [← h.2]
      omega

theorem length_set? {text after : List Char} {token : Token} (h : set? text = some (token, after)) :
    after.length < text.length := by
  unfold set? at h
  split at h
  · obtain ⟨⟨members, rest⟩, found, equal⟩ := Option.map_eq_some_iff.1 h
    simp only [Prod.mk.injEq] at equal
    have := length_setBody? found
    simp only [List.length_cons]
    rw [← equal.2]
    omega
  · obtain ⟨⟨members, rest⟩, found, equal⟩ := Option.map_eq_some_iff.1 h
    simp only [Prod.mk.injEq] at equal
    have := length_setBody? found
    rw [← equal.2]
    omega

/-- The tokens of a pattern; `position` characters, the last of them `before?`, come in front. -/
def tokensOf (position : Nat) (before? : Option Char) (text : List Char) : Except Fault (List Token) :=
  match text with
  | [] => .ok []
  | '*' :: '*' :: '*' :: _ => .error (.tooManyStars (position + 2))
  | '*' :: '*' :: rest =>
    if before?.any (· != '/') then .error (.sharedComponent (position - 1))
    else
      match rest with
      | [] => .ok [.directories]
      | '/' :: rest => do return .directories :: (← tokensOf (position + 3) (some '/') rest)
      | _ :: _ => .error (.sharedComponent (position + 2))
  | '*' :: rest => do return .sequence :: (← tokensOf (position + 1) (some '*') rest)
  | '?' :: rest => do return .any :: (← tokensOf (position + 1) (some '?') rest)
  | '[' :: rest =>
    match _h : set? rest with
    | none => .error (.unfinishedSet position)
    | some (token, after) => do
      return token :: (← tokensOf (position + 1 + (rest.length - after.length)) (some ']') after)
  | c :: rest => do return .literal c :: (← tokensOf (position + 1) (some c) rest)
termination_by text.length
decreasing_by
  all_goals simp only [List.length_cons]
  any_goals omega
  have := length_set? _h
  omega

/-- The ends of a text that `*` may leave. -/
def tails : List Char → List (List Char)
  | [] => [[]]
  | c :: rest => (c :: rest) :: tails rest

/-- The ends of a text that directories in front may leave. -/
def innerTails : List Char → List (List Char)
  | [] => []
  | c :: rest => if c = '/' then rest :: innerTails rest else innerTails rest

def matchOne (token : Token) (c : Char) : Bool :=
  match token with
  | .literal d => c == d
  | .any => true
  | .oneOf ranges => ranges.any (·.contains c)
  | .noneOf ranges => !ranges.any (·.contains c)
  | .sequence | .directories => false

def matchAll : List Token → List Char → Bool
  | [], text => text.isEmpty
  | [.directories], _ => true
  | .directories :: rest, text => (text :: innerTails text).any (matchAll rest)
  | .sequence :: rest, text => (tails text).any (matchAll rest)
  | _ :: _, [] => false
  | token :: rest, c :: text => matchOne token c && matchAll rest text

end Glob

structure Glob where
  tokens : List Glob.Token
deriving DecidableEq, Repr

namespace Glob

def parse (pattern : String) : Except Fault Glob := do return ⟨← tokensOf 0 none pattern.toList⟩

def isMatch (glob : Glob) (text : String) : Bool := matchAll glob.tokens text.toList

end Glob

end SiteQuery
