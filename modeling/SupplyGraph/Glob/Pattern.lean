import SupplyGraph.Bytes

/-!
Shell patterns for names. A star stands for any bytes, slashes included; a double star is special only next to
slashes. This module reads a pattern into its parts; `Glob/Matching` says which names a pattern matches.
-/

namespace SupplyGraph.Glob

inductive Part
  | literal (c : Char)
  | any
  | run
  /-- A double star in front: nothing, or any bytes up to a slash. -/
  | leadingRun
  /-- A double star at the end: a slash and any bytes. -/
  | trailingRun
  /-- A double star between slashes: one slash, or any bytes between two. -/
  | innerRun
  | range (negated : Bool) (ranges : List (Char × Char))
  | choice (branches : List (List Part))

inductive PatternFault
  | unclosedClass
  | invalidRange (first last : Char)
  | unopenedAlternates
  | unclosedAlternates
  | danglingEscape
deriving DecidableEq

def PatternFault.message : PatternFault → String
  | unclosedClass => "unclosed character class; missing ']'"
  | invalidRange first last => s!"invalid range; '{first}' > '{last}'"
  | unopenedAlternates => "unopened alternate group; missing '\x7b' (maybe escape '\x7d' with '[\x7d]'?)"
  | unclosedAlternates => "unclosed alternate group; missing '\x7d' (maybe escape '\x7b' with '[\x7b]'?)"
  | danglingEscape => "dangling '\\'"

/-- The ranges of a class behind its first character. A hyphen makes the last range longer, unless nothing
follows it. -/
def classRanges (ranges : List (Char × Char)) (hyphen : Bool) : List Char → Except PatternFault (List (Char × Char))
  | [] => .ok (if hyphen then ranges ++ [('-', '-')] else ranges)
  | c :: rest =>
    if hyphen then
      match ranges.getLast? with
      | some (first, _) =>
        if c < first then .error (.invalidRange first c) else classRanges (ranges.dropLast ++ [(first, c)]) false rest
      | none => classRanges [(c, c)] false rest
    else if c = '-' then classRanges ranges true rest
    else classRanges (ranges ++ [(c, c)]) false rest

def isNegated (chars : List Char) : Bool := chars.head? == some '!' || chars.head? == some '^'

def classBody (chars : List Char) : List Char := if isNegated chars then chars.tail else chars

theorem length_classBody_le (chars : List Char) : (classBody chars).length ≤ chars.length := by
  unfold classBody
  split <;> simp

/-- Reads a class behind its opening bracket; its first character may be a closing bracket. -/
def readClass (chars : List Char) : Except PatternFault (Part × List Char) :=
  match classBody chars with
  | [] => .error .unclosedClass
  | first :: more => do
    let ranges ← classRanges [(first, first)] false (more.takeWhile (· ≠ ']'))
    match more.dropWhile (· ≠ ']') with
    | [] => .error .unclosedClass
    | _ :: rest => return (.range (isNegated chars) ranges, rest)

theorem length_lt_of_readClass {chars rest : List Char} {part : Part} (read : readClass chars = .ok (part, rest)) :
    rest.length < chars.length := by
  unfold readClass at read
  split at read
  · cases read
  · rename_i first more body
    have bodyLength := length_classBody_le chars
    rw [body] at bodyLength
    simp only [List.length_cons] at bodyLength
    cases ranges : classRanges [(first, first)] false (more.takeWhile (· ≠ ']')) with
    | error fault =>
      simp only [ranges, bind, Except.bind] at read
      cases read
    | ok found =>
      simp only [ranges, bind, Except.bind] at read
      split at read
      · cases read
      · rename_i close after left
        have shorter := (List.dropWhile_sublist (l := more) (· ≠ ']')).length_le
        rw [left] at shorter
        simp only [pure, Except.pure, Except.ok.injEq, Prod.mk.injEq] at read
        simp only [List.length_cons] at shorter
        rw [← read.2]
        omega

/-- A group of alternatives that is open, or the whole pattern: the branches that are complete, the last one
first, and the parts of the current branch, the last one first. -/
structure OpenGroup where
  branches : List (List Part) := []
  current : List Part := []

structure Nesting where
  groups : List OpenGroup := []
  whole : List Part := []

namespace Nesting

def current (nesting : Nesting) : List Part :=
  match nesting.groups with
  | group :: _ => group.current
  | [] => nesting.whole

def setCurrent (nesting : Nesting) (current : List Part) : Nesting :=
  match nesting.groups with
  | group :: outer => { nesting with groups := { group with current } :: outer }
  | [] => { nesting with whole := current }

def push (nesting : Nesting) (part : Part) : Nesting := nesting.setCurrent (part :: nesting.current)

def pushRuns (nesting : Nesting) : Nesting := (nesting.push .run).push .run

def openGroup (nesting : Nesting) : Nesting := { nesting with groups := {} :: nesting.groups }

def comma (nesting : Nesting) : Nesting :=
  match nesting.groups with
  | [] => nesting.push (.literal ',')
  | group :: outer => { nesting with groups := { branches := group.current.reverse :: group.branches } :: outer }

def closeGroup (nesting : Nesting) : Except PatternFault Nesting :=
  match nesting.groups with
  | [] => .error .unopenedAlternates
  | group :: outer =>
    .ok (({ nesting with groups := outer } : Nesting).push (.choice (group.current.reverse :: group.branches).reverse))

/-- A double star that stands behind a slash takes the place of the slash. -/
def replaceLast (nesting : Nesting) (part : Part) : Nesting :=
  match nesting.current with
  | .leadingRun :: _ | .trailingRun :: _ => nesting
  | _ :: earlier => nesting.setCurrent (part :: earlier)
  | [] => nesting.push part

/-- A double star between two characters, and whether the second one belongs to it. -/
def doubleStar (nesting : Nesting) (previous next : Option Char) : Nesting × Bool :=
  let nested := !nesting.groups.isEmpty
  if nesting.current.isEmpty then
    if next = none ∨ next = some '/' then (nesting.push .leadingRun, true) else (nesting.pushRuns, false)
  else if previous = some '/' ∨ (nested ∧ (previous = some ',' ∨ previous = some '\x7b')) then
    if next = none ∨ (nested ∧ (next = some ',' ∨ next = some '\x7d')) then (nesting.replaceLast .trailingRun, false)
    else if next = some '/' then (nesting.replaceLast .innerRun, true)
    else (nesting.pushRuns, false)
  else (nesting.pushRuns, false)

def read (nesting : Nesting) (previous : Option Char) : List Char → Except PatternFault Nesting
  | [] => .ok nesting
  | '?' :: rest => (nesting.push .any).read (some '?') rest
  | '*' :: '*' :: rest =>
    let (next, slashTaken) := nesting.doubleStar previous rest.head?
    if slashTaken then next.read rest.head? rest.tail else next.read (some '*') rest
  | '*' :: rest => (nesting.push .run).read (some '*') rest
  | '[' :: rest =>
    match _found : readClass rest with
    | .error fault => .error fault
    | .ok (part, rest) => (nesting.push part).read (some ']') rest
  | '\x7b' :: rest => nesting.openGroup.read (some '\x7b') rest
  | '\x7d' :: rest => do (← nesting.closeGroup).read (some '\x7d') rest
  | ',' :: rest => nesting.comma.read (some ',') rest
  | ['\\'] => .error .danglingEscape
  | '\\' :: c :: rest => (nesting.push (.literal c)).read (some c) rest
  | c :: rest => (nesting.push (.literal c)).read (some c) rest
termination_by chars => chars.length
decreasing_by
  all_goals try have shorter := length_lt_of_readClass _found
  all_goals simp only [List.length_cons, List.length_tail]
  all_goals omega

end Nesting

structure Pattern where
  parts : List Part

def Pattern.ofChars (chars : List Char) : Except PatternFault Pattern := do
  let nesting ← Nesting.read {} none chars
  if nesting.groups.isEmpty then return ⟨nesting.whole.reverse⟩ else throw .unclosedAlternates

end SupplyGraph.Glob
