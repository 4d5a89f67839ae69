import Mathlib.Data.List.Nodup
import Mathlib.Data.List.Perm.Subperm
import Moth.Hir.Syntax
import Moth.Lib.DigitText

/-!
# Generated identifiers

`js/identifiers.rs` and the local names of `js/symbols.rs`: every name the
emitter hands out is one it has not handed out before.

Both loops try one candidate after the other. They stop because the candidates
are all different and only finitely many names are used, so they are run here
for one round more than there are used names.
-/

namespace Moth.Js

open Moth.Hir Moth.Lib

def isIdentifierStart (ch : Char) : Bool := ch = '_' || ch = '$' || ch.isAlpha

def isIdentifierPart (ch : Char) : Bool := ch = '_' || ch = '$' || ch.isAlphanum

def sanitizeIdentifier (raw : String) : String :=
  let result :=
    match raw.toList with
    | [] => []
    | first :: rest =>
        (if isIdentifierStart first then first else '_') ::
          rest.map fun ch => if isIdentifierPart ch then ch else '_'
  match result with
  | [] => "_value"
  | first :: _ => if first.isDigit then "_" ++ String.ofList result else String.ofList result

/-- `is_js_reserved`. -/
def jsReserved : List String :=
  ["break", "case", "catch", "class", "const", "continue", "debugger", "default", "delete", "do",
    "else", "export", "extends", "finally", "for", "function", "if", "import", "in",
    "instanceof", "new", "return", "super", "switch", "this", "throw", "try", "typeof", "var",
    "void", "while", "with", "yield", "enum", "implements", "interface", "let", "package",
    "private", "protected", "public", "static", "await", "abstract", "boolean", "byte", "char",
    "double", "final", "float", "goto", "int", "long", "native", "short", "synchronized",
    "throws", "transient", "volatile", "undefined", "null", "true", "false", "NaN", "Infinity",
    "eval", "arguments"]

/-- The loop over the candidates from `n` on: the first one that is not used. -/
def firstUnused (used : List String) (candidate : Nat → String) : Nat → Nat → Nat
  | 0, n => n
  | fuel + 1, n =>
      if candidate n ∈ used then firstUnused used candidate fuel (n + 1) else n

theorem mem_of_firstUnused_mem {used : List String} {candidate : Nat → String} {fuel n : Nat}
    (h : candidate (firstUnused used candidate fuel n) ∈ used) :
    ∀ k, n ≤ k → k ≤ n + fuel → candidate k ∈ used := by
  induction fuel generalizing n with
  | zero =>
      intro k hk hle
      have heq : k = n := by omega
      rw [heq]
      exact h
  | succ fuel ih =>
      rw [firstUnused] at h
      split at h
      · rename_i hused
        intro k hk hle
        by_cases heq : k = n
        · rw [heq]
          exact hused
        · exact ih h k (by omega) (by omega)
      · rename_i hnew
        exact absurd h hnew

theorem firstUnused_notMem {used : List String} {candidate : Nat → String}
    (hinj : Function.Injective candidate) (n : Nat) :
    candidate (firstUnused used candidate used.length n) ∉ used := by
  intro h
  have hall := mem_of_firstUnused_mem h
  have hnodup : ((List.range' n (used.length + 1)).map candidate).Nodup :=
    List.Nodup.map hinj List.nodup_range'
  have hsub : (List.range' n (used.length + 1)).map candidate ⊆ used := by
    intro name hname
    obtain ⟨k, hk, rfl⟩ := List.mem_map.1 hname
    rw [List.mem_range'_1] at hk
    exact hall k hk.1 (by omega)
  have hle := (hnodup.subperm hsub).length_le
  rw [List.length_map, List.length_range'] at hle
  omega

/-! ## Numbered names -/

def numbered (stem : String) (n : Nat) : String := stem ++ "_" ++ toString n

theorem numbered_injective (stem : String) : Function.Injective (numbered stem) := by
  intro m n h
  have hlist := congrArg String.toList h
  simp only [numbered, String.toList_append, List.append_cancel_left_eq, Nat.toString_eq_repr,
    Nat.toList_repr] at hlist
  have hvalue := congrArg (fun l => Nat.ofDigitChars 10 l 0) hlist
  simpa only [Nat.ofDigitChars_ten_toDigits] using hvalue

theorem sanitizeIdentifier_of_valid {first : Char} {rest : List Char}
    (hfirst : isIdentifierStart first = true) (hdigit : first.isDigit = false)
    (hrest : ∀ ch ∈ rest, isIdentifierPart ch = true) :
    sanitizeIdentifier (String.ofList (first :: rest)) = String.ofList (first :: rest) := by
  have hmap : (rest.map fun ch => if isIdentifierPart ch then ch else '_') = rest := by
    refine (List.map_congr_left fun ch hch => if_pos (hrest ch hch)).trans ?_
    exact List.map_id rest
  rw [sanitizeIdentifier, String.toList_ofList]
  simp only [hfirst, if_true, hmap, hdigit, Bool.false_eq_true, if_false]

theorem isIdentifierPart_of_isDigit {ch : Char} (h : ch.isDigit = true) :
    isIdentifierPart ch = true := by
  simp [isIdentifierPart, Char.isAlphanum, h]

/-- The names of temporaries need no repair. -/
theorem sanitizeIdentifier_numbered {stem : List Char}
    (hstem : ∀ ch ∈ stem, isIdentifierPart ch = true) (n : Nat) :
    sanitizeIdentifier (numbered (String.ofList ('_' :: stem)) n) =
      numbered (String.ofList ('_' :: stem)) n := by
  have heq : numbered (String.ofList ('_' :: stem)) n =
      String.ofList ('_' :: (stem ++ '_' :: Nat.toDigits 10 n)) := by
    refine String.toList_injective ?_
    rw [numbered, String.toList_append, String.toList_append, Nat.toString_eq_repr,
      Nat.toList_repr, String.toList_ofList, String.toList_ofList]
    simp
  rw [heq]
  refine sanitizeIdentifier_of_valid (by decide) (by decide) ?_
  intro ch hch
  rcases List.mem_append.1 hch with hin | hin
  · exact hstem ch hin
  · rcases List.mem_cons.1 hin with rfl | hdigit
    · decide
    · exact isIdentifierPart_of_isDigit
        (Nat.isDigit_of_mem_toDigits (by decide) (by decide) hdigit)

/-! ## The emitter's names -/

/-- The names an emitter has given to locals and temporaries. -/
structure JsNames where
  localNameById : LocalId → Option String
  usedIdentifiers : List String
  tempCounter : Nat
  names_inj : ∀ (a b : LocalId) (name : String),
    localNameById a = some name → localNameById b = some name → a = b
  names_used : ∀ (l : LocalId) (name : String),
    localNameById l = some name → name ∈ usedIdentifiers

namespace JsNames

/-- An emitter that has named functions and no locals. -/
def new (usedIdentifiers : List String) : JsNames where
  localNameById := fun _ => none
  usedIdentifiers := usedIdentifiers
  tempCounter := 0
  names_inj := fun _ _ _ h => nomatch h
  names_used := fun _ _ h => nomatch h

theorem use_names_used (names : JsNames) (name : String) (l : LocalId) (other : String)
    (h : names.localNameById l = some other) : other ∈ name :: names.usedIdentifiers :=
  List.mem_cons_of_mem _ (names.names_used l other h)

/-- Reserve a name for a temporary; the counter stands after it. -/
def use (names : JsNames) (name : String) (tempCounter : Nat) : JsNames :=
  { names with
    usedIdentifiers := name :: names.usedIdentifiers
    tempCounter := tempCounter
    names_used := names.use_names_used name }

def nextTempIdentifier (names : JsNames) (stem : String) : String × JsNames :=
  let candidate := fun n => sanitizeIdentifier (numbered stem n)
  let n := firstUnused names.usedIdentifiers candidate names.usedIdentifiers.length
    names.tempCounter
  (candidate n, names.use (candidate n) (n + 1))

theorem nextTempIdentifier_notMem (names : JsNames) {stem : List Char}
    (hstem : ∀ ch ∈ stem, isIdentifierPart ch = true) :
    (names.nextTempIdentifier (String.ofList ('_' :: stem))).1 ∉ names.usedIdentifiers := by
  simp only [nextTempIdentifier, sanitizeIdentifier_numbered hstem]
  exact firstUnused_notMem (numbered_injective _) names.tempCounter

theorem nextTempIdentifier_used (names : JsNames) (stem : String) :
    (names.nextTempIdentifier stem).2.usedIdentifiers =
      (names.nextTempIdentifier stem).1 :: names.usedIdentifiers := rfl

/-! ## Naming the locals -/

def candidateName (identifier : String) : Nat → String
  | 0 => identifier
  | suffix + 1 => numbered identifier (suffix + 1)

theorem candidateName_injective (identifier : String) :
    Function.Injective (candidateName identifier) := by
  have hlonger : ∀ n, numbered identifier (n + 1) ≠ identifier := by
    intro n h
    have hlength := congrArg (fun name => name.toList.length) h
    simp only [numbered, String.toList_append, List.length_append] at hlength
    have : ("_" : String).toList.length = 1 := rfl
    omega
  intro m n h
  cases m with
  | zero =>
      cases n with
      | zero => rfl
      | succ n => exact absurd h.symm (hlonger n)
  | succ m =>
      cases n with
      | zero => exact absurd h (hlonger m)
      | succ n => exact numbered_injective identifier h

/-- `assign_unique_identifier`. -/
def uniqueIdentifier (used : List String) (raw : String) : String :=
  let sanitized := sanitizeIdentifier raw
  let identifier := if sanitized ∈ jsReserved then "_" ++ sanitized else sanitized
  let identifier := if identifier.isEmpty then "_value" else identifier
  candidateName identifier (firstUnused used (candidateName identifier) used.length 0)

theorem uniqueIdentifier_notMem (used : List String) (raw : String) :
    uniqueIdentifier used raw ∉ used :=
  firstUnused_notMem (candidateName_injective _) 0

/-- The names with one more local. -/
def withLocal (names : JsNames) (l : LocalId) (name : String) (other : LocalId) :
    Option String :=
  if other = l then some name else names.localNameById other

theorem withLocal_cases {names : JsNames} {l other : LocalId} {name found : String}
    (h : names.withLocal l name other = some found) :
    other = l ∧ found = name ∨
      names.localNameById other = some found ∧ found ∈ names.usedIdentifiers := by
  rw [withLocal] at h
  split at h
  · rename_i heq
    cases h
    exact Or.inl ⟨heq, rfl⟩
  · exact Or.inr ⟨h, names.names_used other found h⟩

theorem withLocal_inj (names : JsNames) (l : LocalId) (name : String)
    (hnew : name ∉ names.usedIdentifiers) (a b : LocalId) (found : String)
    (ha : names.withLocal l name a = some found) (hb : names.withLocal l name b = some found) :
    a = b := by
  rcases withLocal_cases ha with ⟨hal, hname⟩ | ⟨hamap, haused⟩
  · rcases withLocal_cases hb with ⟨hbl, -⟩ | ⟨-, hbused⟩
    · rw [hal, hbl]
    · exact absurd (hname ▸ hbused) hnew
  · rcases withLocal_cases hb with ⟨-, hname⟩ | ⟨hbmap, -⟩
    · exact absurd (hname ▸ haused) hnew
    · exact names.names_inj a b found hamap hbmap

theorem withLocal_used (names : JsNames) (l : LocalId) (name : String) (other : LocalId)
    (found : String) (h : names.withLocal l name other = some found) :
    found ∈ name :: names.usedIdentifiers := by
  rcases withLocal_cases h with ⟨-, hname⟩ | ⟨-, hused⟩
  · rw [hname]
    exact List.mem_cons_self
  · exact List.mem_cons_of_mem _ hused

/-- A name of its own for a local. -/
def assign (names : JsNames) (l : LocalId) (name : String)
    (hnew : name ∉ names.usedIdentifiers) : JsNames where
  localNameById := names.withLocal l name
  usedIdentifiers := name :: names.usedIdentifiers
  tempCounter := names.tempCounter
  names_inj := names.withLocal_inj l name hnew
  names_used := names.withLocal_used l name

/-- The name of a local, from its raw name. -/
def assignLocal (names : JsNames) (l : LocalId) (raw : String) : JsNames :=
  names.assign l (uniqueIdentifier names.usedIdentifiers raw) (uniqueIdentifier_notMem _ raw)

/-- `build_local_symbols`, over the locals by id with their raw names. -/
def buildLocalSymbols (specs : List (LocalId × String)) (names : JsNames) : JsNames :=
  specs.foldl (fun names spec => names.assignLocal spec.1 spec.2) names

end JsNames

end Moth.Js
