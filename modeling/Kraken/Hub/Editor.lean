import Mathlib.Tactic
import Kraken.Lib.Bytes

/-! The words of a notebook for the search: the values of the keys `text` of the editor's
document, told from the flat tokens of the decoder by a stack of modes. -/
namespace Kraken.Hub.Editor
open Bytes (text)

inductive Delim where
  | openBracket | closeBracket | openBrace | closeBrace
  deriving DecidableEq, Repr

inductive Token where
  | delim (d : Delim)
  | string (s : Bytes)
  | number (literal : Bytes)
  | bool (b : Bool)
  | null
  deriving DecidableEq, Repr

/- The runes `:`, `{`, `[` and `&`. -/
inductive Mode where
  | colon | brace | bracket | ampersand
  deriving DecidableEq, Repr

/- A value is through, with its string; `none` is a read of the empty stack. -/
def settle (pr : Bytes) (modes : List Mode) (buf : Bytes) : Option (List Mode × Bytes) :=
  match modes with
  | [] => none
  | .brace::_ => some (if pr ≠ text "text" then (.colon::modes,buf) else (.ampersand::modes,buf))
  | .colon::modes => some (modes,buf)
  | .ampersand::modes => some (modes,buf ++ (pr ++ text " "))
  | .bracket::_ => some (modes,buf)

def step (tk : Token) (modes : List Mode) (buf : Bytes) : Option (List Mode × Bytes) :=
  match tk with
  | .delim .openBracket => some (.bracket::modes,buf)
  | .delim .openBrace => some (.brace::modes,buf)
  | .delim .closeBracket | .delim .closeBrace =>
    if modes = [] then none else settle [] modes.tail buf
  | .string s => settle s modes buf
  | .number _ | .bool _ | .null => settle [] modes buf

/- Behind its tokens the decoder has the end of the input, or an error. -/
def parseLoop (final : Option Bytes) : List Token → List Mode → Bytes → Option (Except Bytes Bytes)
  | _, [], buf => some (.ok buf)
  | [], _::_, buf => some (final.elim (.ok buf) fun e => .error (text "reading token: " ++ e))
  | tk::rest, m::modes, buf =>
    (step tk (m::modes) buf).bind fun next => parseLoop final rest next.1 next.2

def ParseEditorJSON (tokens : List Token) (final : Option Bytes) : Option (Except Bytes Bytes) :=
  parseLoop final tokens [.colon] []

/-! Documents. -/

inductive Json where
  | null
  | bool (b : Bool)
  | number (literal : Bytes)
  | string (s : Bytes)
  | array (items : List Json)
  | object (members : List (Bytes × Json))

mutual

def tokens : Json → List Token
  | .null => [.null]
  | .bool b => [.bool b]
  | .number literal => [.number literal]
  | .string s => [.string s]
  | .array items => .delim .openBracket::(itemTokens items ++ [.delim .closeBracket])
  | .object members => .delim .openBrace::(memberTokens members ++ [.delim .closeBrace])

def itemTokens : List Json → List Token
  | [] => []
  | v::items => tokens v ++ itemTokens items

def memberTokens : List (Bytes × Json) → List Token
  | [] => []
  | (key,v)::members => .string key::(tokens v ++ memberTokens members)

end

/- The text of a value, which only a string has. -/
def own : Json → Bytes
  | .string s => s
  | _ => []

mutual

/- The texts of the values under the keys `text`, in the order in which the values end. -/
def texts : Json → List Bytes
  | .array items => itemTexts items
  | .object members => memberTexts members
  | _ => []

def itemTexts : List Json → List Bytes
  | [] => []
  | v::items => texts v ++ itemTexts items

def memberTexts : List (Bytes × Json) → List Bytes
  | [] => []
  | (key,v)::members =>
    texts v ++ (if key = text "text" then [own v] else []) ++ memberTexts members

end

/- Each with a space behind it. -/
def spaced (l : List Bytes) : Bytes := l.flatMap fun s => s ++ text " "

theorem spacedAppend (l m : List Bytes) : spaced (l ++ m) = spaced l ++ spaced m :=
  List.flatMap_append

/- What the end of a value leaves of the modes, and the texts it adds by the mode it stands in. -/
def left (m : Mode) (modes : List Mode) : List Mode :=
  match m with
  | .bracket => .bracket::modes
  | .colon | .brace | .ampersand => modes

def added (m : Mode) (v : Json) : List Bytes :=
  match m with
  | .ampersand => texts v ++ [own v]
  | .colon | .brace | .bracket => texts v

theorem settled {m : Mode} (place : m ≠ .brace) (v : Json) (modes : List Mode) (buf : Bytes) :
    settle (own v) (m::modes) (buf ++ spaced (texts v)) =
      some (left m modes,buf ++ spaced (added m v)) := by
  cases m with
  | brace => exact absurd rfl place
  | colon => rfl
  | bracket => rfl
  | ampersand =>
    have one : spaced [own v] = own v ++ text " " := List.append_nil _
    rw [settle,added,spacedAppend,one,List.append_assoc]
    rfl

theorem parseStep {final : Option Bytes} {tk : Token} {rest : List Token} {m : Mode}
    {modes modes' : List Mode} {buf buf' : Bytes} (one : step tk (m::modes) buf = some (modes',buf')) :
    parseLoop final (tk::rest) (m::modes) buf = parseLoop final rest modes' buf' := by
  rw [parseLoop,one]
  rfl

theorem scalarRead {final : Option Bytes} {v : Json} {tk : Token} (one : tokens v = [tk])
    (bare : texts v = []) (reads : ∀ modes buf, step tk modes buf = settle (own v) modes buf)
    {m : Mode} (place : m ≠ .brace) (rest : List Token) (modes : List Mode) (buf : Bytes) :
    parseLoop final (tokens v ++ rest) (m::modes) buf =
      parseLoop final rest (left m modes) (buf ++ spaced (added m v)) := by
  have through := settled place v modes buf
  rw [bare,spaced,List.flatMap_nil,List.append_nil,← reads] at through
  rw [one,List.singleton_append]
  exact parseStep through

mutual

/- The invariant: a value is read in the mode it stands in, and takes that mode off. -/
theorem valueRead (final : Option Bytes) (v : Json) {m : Mode} (place : m ≠ .brace)
    (rest : List Token) (modes : List Mode) (buf : Bytes) :
    parseLoop final (tokens v ++ rest) (m::modes) buf =
      parseLoop final rest (left m modes) (buf ++ spaced (added m v)) := by
  have through := settled place v modes buf
  cases v with
  | null => exact scalarRead rfl rfl (fun _ _ => rfl) place rest modes buf
  | bool b => exact scalarRead rfl rfl (fun _ _ => rfl) place rest modes buf
  | number literal => exact scalarRead rfl rfl (fun _ _ => rfl) place rest modes buf
  | string s => exact scalarRead rfl rfl (fun _ _ => rfl) place rest modes buf
  | array items =>
    rw [tokens,List.cons_append,List.append_assoc]
    have opened : step (.delim .openBracket) (m::modes) buf = some (.bracket::m::modes,buf) := rfl
    rw [parseStep opened,itemsRead]
    exact parseStep through
  | object members =>
    rw [tokens,List.cons_append,List.append_assoc]
    have opened : step (.delim .openBrace) (m::modes) buf = some (.brace::m::modes,buf) := rfl
    rw [parseStep opened,membersRead]
    exact parseStep through

theorem itemsRead (final : Option Bytes) (items : List Json)
    (rest : List Token) (modes : List Mode) (buf : Bytes) :
    parseLoop final (itemTokens items ++ rest) (.bracket::modes) buf =
      parseLoop final rest (.bracket::modes) (buf ++ spaced (itemTexts items)) := by
  cases items with
  | nil => rw [itemTexts,spaced,List.flatMap_nil,List.append_nil]; rfl
  | cons v items =>
    rw [itemTokens,List.append_assoc,valueRead final v (by decide),left,itemsRead,itemTexts,
      spacedAppend,List.append_assoc]
    rfl

theorem membersRead (final : Option Bytes) (members : List (Bytes × Json))
    (rest : List Token) (modes : List Mode) (buf : Bytes) :
    parseLoop final (memberTokens members ++ rest) (.brace::modes) buf =
      parseLoop final rest (.brace::modes) (buf ++ spaced (memberTexts members)) := by
  cases members with
  | nil => rw [memberTexts,spaced,List.flatMap_nil,List.append_nil]; rfl
  | cons member members =>
    obtain ⟨key,v⟩ := member
    rw [memberTokens,List.cons_append,List.append_assoc,memberTexts,spacedAppend,← List.append_assoc buf]
    -- the key decides under which mode its value is read
    by_cases named : key = text "text"
    · have read : step (.string key) (.brace::modes) buf = some (.ampersand::.brace::modes,buf) := by
        rw [step,settle,if_neg (not_not.mpr named)]
      rw [parseStep read,valueRead final v (by decide),left,membersRead,if_pos named]
      rfl
    · have read : step (.string key) (.brace::modes) buf = some (.colon::.brace::modes,buf) := by
        rw [step,settle,if_pos named]
      rw [parseStep read,valueRead final v (by decide),left,membersRead,if_neg named,List.append_nil]
      rfl

end

/-- The texts of a document are found, and the stack is not read when it is empty. -/
theorem editorTexts (v : Json) (rest : List Token) (final : Option Bytes) :
    ParseEditorJSON (tokens v ++ rest) final = some (.ok (spaced (texts v))) := by
  rw [ParseEditorJSON,valueRead final v (by decide)]
  cases rest <;> rfl

end Kraken.Hub.Editor
