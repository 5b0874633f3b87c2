import Mathlib.Tactic
import Kraken.Lib.Bytes
import Kraken.Lib.Utf8

/-! Tables imported from CSV files: the schema made of a header, and the join on a column. -/
namespace Kraken.Hub.Pivot

open Bytes (text)
open Utf8 (runes ranged rangedFrom decodeRune)

def alnums : List Nat := [
  0b0000000000000000,
  0b0000000000000000,
  0b0100000000010000,
  0b0000001111111111,
  0b1111111111111110,
  0b1000011111111111,
  0b1111111111111110,
  0b0000011111111111,
  0b0000000000000000,
  0b0000000000000000,
  0b0000000000000000,
  0b0000000000000000,
  0b0000000000000000,
  0b0000000000000000,
  0b0000000000000000,
  0b0000000000000000]

def isalnum (r : Nat) : Bool :=
  if 0x80 ≤ r then false else (1 <<< (r &&& 0xF)) &&& alnums.getD (r >>> 4) 0 ≠ 0

def sanitize (name : Bytes) : Bytes :=
  match (ranged name).find? fun c => !isalnum c.2 with
  | none => name
  | some (j,_) => name.take j ++ ((runes (name.drop j)).filter isalnum).map UInt8.ofNat

/- The name of a column by the header field and its number. -/
def columnName (i : Nat) (n : Bytes) : Bytes :=
  let n := sanitize n
  if n.length = 0 then text "col_" ++ Bytes.decimal i else n

def schemaFrom : Nat → List Bytes → Bytes
  | _, [] => []
  | i, n::names =>
    (if 0 < i then text ", " else []) ++ (text "\"" ++ columnName i n ++ text "\"") ++ schemaFrom
    (i+1) names

def buildTableSchema (names : List Bytes) : Bytes := schemaFrom 0 names

structure CSVPivot where
  Table : Bytes
  Cols : List Bytes

def joinText (table coln : Bytes) : Bytes :=
  text "join \"" ++ table ++ text "\" on \"" ++ coln ++ text "\"=lioli_path(\"main\".\"record\", ?)"

/- The query and its arguments, for the paths a pivot is applied on. -/
def CSVPivot.Apply (table : CSVPivot) : List Bytes → Bytes × List Bytes
  | [left,right] =>
    let coln := sanitize right
    if table.Cols.contains coln then (joinText table.Table coln,[left]) else ([],[])
  | _ => ([],[])

/-! The names of columns in SQL: quoted, a quote in them doubled, and the same up to the case of
letters of ASCII. -/

def quote : UInt8 := 0x22

/- Behind the opening quote; a quote that is held may be the first of two. -/
def readQuoted : Bool → Bytes → Option (Bytes × Bytes)
  | held, [] => if held then some ([],[]) else none
  | true, c::s => if c = quote then (readQuoted false s).map fun (name,rest) =>
    (quote::name,rest) else some ([],c::s)
  | false, c::s =>
    if c = quote then readQuoted true s else (readQuoted false s).map fun (name,rest) => (c::name,rest)

def readColumns : Nat → Bytes → Option (List Bytes)
  | 0, _ => none
  | _+1, [] => none
  | n+1, c::s =>
    if c = quote then (readQuoted false s).bind fun (name,rest) =>
      match rest with
      | [] => some [name]
      | d::rest => if d = 0x2C then (readColumns n (rest.dropWhile (· = 0x20))).map (name::·) else none
    else none

/- The columns of a table by its schema. -/
def columns (schema : Bytes) : Option (List Bytes) :=
  if schema = [] then some [] else readColumns schema.length schema

def lower (b : UInt8) : UInt8 := if 0x41 ≤ b.toNat ∧ b.toNat ≤ 0x5A then b + 0x20 else b

def folded (name : Bytes) : Bytes := name.map lower

/-! Names. -/

def Plain (name : Bytes) : Prop := ∀ b ∈ name, isalnum b.toNat = true

instance (name : Bytes) : Decidable (Plain name) :=
  decidable_of_iff (name.all fun b => isalnum b.toNat) List.all_eq_true

theorem alnumSmall {r : Nat} (alnum : isalnum r = true) : r < 0x80 := by
  by_contra large
  rw [isalnum,if_pos (not_lt.mp large)] at alnum
  contradiction

theorem alnumBytes : ∀ b : UInt8, isalnum b.toNat = true → b ≠ quote := by
  intro b alnum
  rintro rfl
  revert alnum
  decide

/- A small rune is its byte. -/
theorem runeSmall {b : UInt8} {s : Bytes} (small : (decodeRune (b::s)).1 < 0x80) :
    b.toNat = (decodeRune (b::s)).1 ∧ (decodeRune (b::s)).2 = 1 := by
  by_cases ascii : b.toNat < 0x80
  · rw [Utf8.runeAscii ascii]
    exact ⟨rfl,rfl⟩
  · exfalso
    have valid : decodeRune (b::s) ≠ (Utf8.runeError,1) := fun error => by
      rw [error] at small
      revert small
      decide
    have bytes := Utf8.encodeDecode (List.cons_ne_nil b s) valid
    have one : Utf8.encodeRune (decodeRune (b::s)).1 = [UInt8.ofNat (decodeRune (b::s)).1] := by
      simp [Utf8.encodeRune,Utf8.encodeNats,Utf8.runeLen,show (decodeRune (b::s)).1 ≤ 0x7F by omega]
    have width := (Utf8.runeWidth (List.cons_ne_nil b s)).1
    obtain ⟨w,eq⟩ := Nat.exists_eq_add_of_le' width
    rw [one,eq,List.take_succ_cons] at bytes
    have head := (List.cons.inj bytes).1
    have value := congrArg UInt8.toNat head
    rw [UInt8.toNat_ofNat'] at value
    omega

theorem rangedStops {n i : Nat} {s : Bytes} (fuel : s.length ≤ n) {j r : Nat}
    (found : (rangedFrom n i s).find? (fun c => !isalnum c.2) = some (j,r)) :
    i ≤ j ∧ Plain (s.take (j-i)) ∧ isalnum r = false := by
  induction n generalizing i s with
  | zero => contradiction
  | succ n ih =>
    cases s with
    | nil => contradiction
    | cons b s =>
      rw [rangedFrom,List.find?_cons] at found
      cases alnum : isalnum (decodeRune (b::s)).1 with
      | false =>
        simp only [alnum,Bool.not_false] at found
        obtain ⟨rfl,rfl⟩ := Prod.mk.inj (Option.some.inj found)
        exact ⟨le_rfl,by simp [Plain],alnum⟩
      | true =>
        obtain ⟨value,width⟩ := runeSmall (alnumSmall alnum)
        simp only [alnum,Bool.not_true,width,List.drop_succ_cons,List.drop_zero] at found
        obtain ⟨later,plain,other⟩ := ih (Nat.le_of_succ_le_succ fuel) found
        refine ⟨by omega,?_,other⟩
        obtain ⟨k,eq⟩ := Nat.exists_eq_add_of_lt later
        rw [show j - i = (j - (i+1)) + 1 by omega,List.take_succ_cons]
        exact List.forall_mem_cons.mpr ⟨value ▸ alnum,plain⟩

theorem rangedAll {n i : Nat} {s : Bytes} (fuel : s.length ≤ n) :
    (rangedFrom n i s).find? (fun c => !isalnum c.2) = none ↔ Plain s := by
  induction n generalizing i s with
  | zero =>
    rw [List.length_eq_zero_iff.mp (Nat.le_zero.mp fuel)]
    simp [rangedFrom,Plain]
  | succ n ih =>
    cases s with
    | nil => simp [rangedFrom,Plain]
    | cons b s =>
      rw [rangedFrom,List.find?_cons,Plain,List.forall_mem_cons]
      cases alnum : isalnum (decodeRune (b::s)).1 with
      | false =>
        have other : isalnum b.toNat ≠ true := fun plain => by
          rw [Utf8.runeAscii (alnumSmall plain),plain] at alnum
          contradiction
        simp [other]
      | true =>
        obtain ⟨value,width⟩ := runeSmall (alnumSmall alnum)
        simp only [Bool.not_true,width,List.drop_succ_cons,List.drop_zero]
        rw [ih (Nat.le_of_succ_le_succ fuel),value,alnum]
        simp [Plain]

/- Text of the small set is kept, and only such comes out. -/
theorem sanitizeKeeps {name : Bytes} (plain : Plain name) : sanitize name = name := by
  rw [sanitize,ranged,(rangedAll le_rfl).mpr plain]

theorem sanitizePlain (name : Bytes) : Plain (sanitize name) := by
  rw [sanitize]
  cases found : (ranged name).find? fun c => !isalnum c.2 with
  | none => exact (rangedAll le_rfl).mp found
  | some c =>
    obtain ⟨_,first,_⟩ := rangedStops le_rfl found
    refine List.forall_mem_append.mpr ⟨first,fun b mem => ?_⟩
    obtain ⟨r,inside,rfl⟩ := List.mem_map.mp mem
    have alnum := (List.mem_filter.mp inside).2
    rw [UInt8.toNat_ofNat',Nat.mod_eq_of_lt (Nat.lt_trans (alnumSmall alnum) (by decide))]
    exact alnum

theorem columnPlain (i : Nat) (n : Bytes) : Plain (columnName i n) ∧ columnName i n ≠ [] := by
  rw [columnName]
  split_ifs with none
  · have word : Plain (text "col_") := by decide
    refine ⟨List.forall_mem_append.mpr ⟨word,fun b mem => ?_⟩,by simp [Bytes.decimalFilled]⟩
    have digits : ∀ d < 0x3A, 0x30 ≤ d → isalnum d = true := by decide
    obtain ⟨low,high⟩ := Bytes.decimalDigit mem
    exact digits b.toNat (by omega) low
  · exact ⟨sanitizePlain n,fun empty => none (List.length_eq_zero_iff.mpr empty)⟩

/-! Schemas. -/

theorem quotedRead {name : Bytes} (plain : Plain name) {rest : Bytes} (apart : rest.head? ≠ some quote) :
    readQuoted false (name ++ quote::rest) = some (name,rest) := by
  induction name with
  | nil =>
    rw [List.nil_append,readQuoted,if_pos rfl]
    cases rest with
    | nil => rfl
    | cons d rest => exact if_neg fun same => apart (congrArg some same)
  | cons c name ih =>
    obtain ⟨alnum,plain⟩ := List.forall_mem_cons.mp plain
    rw [List.cons_append,readQuoted,if_neg (alnumBytes c alnum),ih plain]
    rfl

def columnNames : Nat → List Bytes → List Bytes
  | _, [] => []
  | i, n::names => columnName i n::columnNames (i+1) names

theorem schemaNext (i : Nat) (n : Bytes) (names : List Bytes) : schemaFrom (i+1) (n::names) =
    0x2C::0x20::quote::(columnName (i+1) n ++ quote::schemaFrom (i+2) names) := by
  have comma : text ", " = [0x2C,0x20] := rfl
  have mark : text "\"" = [quote] := rfl
  simp [schemaFrom,comma,mark]

/- From the quote of a column on. -/
theorem columnsRead (names : List Bytes) {i fuel : Nat} (n : Bytes) (enough : names.length < fuel) :
    readColumns fuel (quote::(columnName i n ++ quote::schemaFrom (i+1) names)) =
      some (columnNames i (n::names)) := by
  induction names generalizing i fuel n with
  | nil =>
    cases fuel with
    | zero => contradiction
    | succ fuel =>
      rw [readColumns,if_pos rfl,quotedRead (columnPlain i n).1 (by simp [schemaFrom])]
      rfl
  | cons m names ih =>
    cases fuel with
    | zero => contradiction
    | succ fuel =>
      have later := ih (i := i+1) m (Nat.lt_of_succ_lt_succ enough)
      have comma : (0x2C::0x20::quote::(columnName (i+1) m ++ quote::schemaFrom (i+2) names)).head? ≠ some quote :=
        show some (0x2C : UInt8) ≠ some quote by decide
      rw [schemaNext,readColumns,if_pos rfl,quotedRead (columnPlain i n).1 comma]
      have blank : (0x20::quote::(columnName (i+1) m ++ quote::schemaFrom (i+2) names)).dropWhile (· = 0x20) =
          quote::(columnName (i+1) m ++ quote::schemaFrom (i+2) names) := rfl
      simp only [Option.bind_some,if_true,blank,later]
      rfl

theorem schemaRead (names : List Bytes) : columns (buildTableSchema names) = some
    (columnNames 0 names) := by
  cases names with
  | nil => rfl
  | cons n names =>
    have mark : text "\"" = [quote] := rfl
    have first : buildTableSchema (n::names) = quote::(columnName 0 n ++ quote::schemaFrom 1 names) := by
      simp [buildTableSchema,schemaFrom,mark]
    have longer : ∀ (names : List Bytes) i, names.length ≤ (schemaFrom i names).length := by
      intro names
      induction names with
      | nil => simp
      | cons n names ih =>
        intro i
        have later := ih (i+1)
        simp only [schemaFrom,List.length_append,List.length_cons,mark]
        simp
        omega
    rw [columns,first,if_neg (List.cons_ne_nil _ _)]
    refine columnsRead names n ?_
    have := longer names 1
    simp
    omega

/-! Agreement. -/

/- The join on a field is one on the column. -/
def Joins (pivot : CSVPivot) (name column : Bytes) : Prop :=
  ∀ left, ∃ c, folded c = folded column ∧ pivot.Apply [left,name] = (joinText pivot.Table c,[left])

/- The table has different columns, one for each field of the header, and a field selects its own. -/
structure Agrees (table : Bytes) (names cs : List Bytes) : Prop where
  created : columns (buildTableSchema names) = some cs
  each : cs.length = names.length
  apart : (cs.map folded).Nodup
  joins : ∀ (i : Nat) name column, names[i]? = some name → cs[i]? = some column → Joins ⟨table,names⟩ name column

theorem columnsGet (names : List Bytes) (i k : Nat) :
    (columnNames i names)[k]? = names[k]?.map (columnName (i+k)) := by
  induction names generalizing i k with
  | nil => simp [columnNames]
  | cons n names ih =>
    cases k with
    | zero => rfl
    | succ k =>
      rw [columnNames,List.getElem?_cons_succ,ih,List.getElem?_cons_succ,Nat.add_right_comm,Nat.add_assoc]

theorem columnKept {i : Nat} {n : Bytes} (plain : Plain n) (some : n ≠ []) : columnName i n = n := by
  rw [columnName]
  simp only [sanitizeKeeps plain]
  exact if_neg fun none => some (List.length_eq_zero_iff.mp none)

theorem columnsKept {names : List Bytes} (plain : ∀ n ∈ names, n ≠ [] ∧ Plain n) (i : Nat) :
    columnNames i names = names := by
  induction names generalizing i with
  | nil => rfl
  | cons n names ih =>
    obtain ⟨⟨some,here⟩,later⟩ := List.forall_mem_cons.mp plain
    rw [columnNames,columnKept here some,ih later]

theorem joinSame {table c d : Bytes} (same : joinText table c = joinText table d) : c = d :=
  List.append_cancel_left (List.append_cancel_right same)

/- A field that joins on its column is among the columns as it is sanitized. -/
theorem joinsField {table : Bytes} {names : List Bytes} {i : Nat} {n : Bytes}
    (joins : Joins ⟨table,names⟩ n (columnName i n)) : sanitize n ∈ names ∧ columnName i n =
    sanitize n := by
  obtain ⟨c,same,applied⟩ := joins []
  rw [CSVPivot.Apply] at applied
  simp only at applied
  split_ifs at applied with among
  · have coln := joinSame (Prod.mk.inj applied).1
    have length : (sanitize n).length = (columnName i n).length := by
      have lengths := congrArg List.length same
      rwa [← coln,folded,folded,List.length_map,List.length_map] at lengths
    refine ⟨List.contains_iff_mem.mp among,?_⟩
    have filled : ¬(sanitize n).length = 0 := by
      rw [length,List.length_eq_zero_iff]
      exact (columnPlain i n).2
    exact if_neg filled
  · have filled : joinText table c ≠ [] := List.append_ne_nil_of_right_ne_nil _ (by decide)
    exact absurd (Prod.mk.inj applied).1.symm filled

/-- The columns agree with the header exactly where its fields are nonempty, of letters, digits and the
three marks only, and pairwise different up to case. -/
theorem pivotAgreesIff (table : Bytes) (names : List Bytes) : (∃ cs, Agrees table names cs) ↔
    (∀ n ∈ names, n ≠ [] ∧ Plain n) ∧ (names.map folded).Nodup := by
  constructor
  · rintro ⟨cs,agrees⟩
    obtain rfl : columnNames 0 names = cs := Option.some.inj ((schemaRead names).symm.trans agrees.created)
    have field : ∀ (i : Nat) n, names[i]? = some n → sanitize n ∈ names ∧ columnName i n = sanitize n := by
      intro i n here
      have column : (columnNames 0 names)[i]? = some (columnName i n) := by rw [columnsGet,here,Nat.zero_add]; rfl
      exact joinsField (agrees.joins i n _ here column)
    have plain : ∀ n ∈ names, n ≠ [] ∧ Plain n := by
      intro n mem
      obtain ⟨i,here⟩ := List.mem_iff_getElem?.mp mem
      obtain ⟨among,same⟩ := field i n here
      obtain ⟨k,there⟩ := List.mem_iff_getElem?.mp among
      have column := (field k _ there).2
      rw [sanitizeKeeps (sanitizePlain n)] at column
      have place : ∀ j m, names[j]? = some m →
          ((columnNames 0 names).map folded)[j]? = some (folded (columnName j m)) := by
        intro j m get
        rw [List.getElem?_map,columnsGet,get,Nat.zero_add]
        rfl
      have equal : i = k := by
        have left := place i n here
        have right := place k _ there
        rw [same] at left
        rw [column] at right
        exact (List.getElem?_inj (List.getElem?_eq_some_iff.mp left).1 agrees.apart).mp (left.trans right.symm)
      have kept : n = sanitize n := Option.some.inj (here.symm.trans (equal ▸ there))
      refine ⟨?_,by rw [kept]; exact sanitizePlain n⟩
      rw [kept,← same]
      exact (columnPlain i n).2
    refine ⟨plain,?_⟩
    have apart := agrees.apart
    rwa [columnsKept plain] at apart
  · rintro ⟨plain,apart⟩
    have read := schemaRead names
    rw [columnsKept plain] at read
    refine ⟨names,read,rfl,apart,fun i n column here there left => ?_⟩
    obtain rfl := Option.some.inj (here.symm.trans there)
    have mem := List.mem_of_getElem? here
    refine ⟨n,rfl,?_⟩
    rw [CSVPivot.Apply,sanitizeKeeps (plain n mem).2]
    exact if_pos (List.contains_iff_mem.mpr mem)

/- No column is used for a field with a space, and fields that are sanitized alike have one name. -/
theorem spaceLost : (¬∃ cs, Agrees (text "pivot_1") [text "user name"] cs) ∧
    ¬∃ cs, Agrees (text "pivot_1") [text "a",text "a-"] cs := by
  constructor
  · rintro ⟨cs,agrees⟩
    have created : columns (buildTableSchema [text "user name"]) = some [text "username"] := schemaRead _
    obtain rfl : [text "username"] = cs := Option.some.inj (created.symm.trans agrees.created)
    obtain ⟨c,_,applied⟩ := agrees.joins 0 (text "user name") (text "username") rfl rfl []
    have none : CSVPivot.Apply ⟨text "pivot_1",[text "user name"]⟩ [[],text "user name"] = ([],[]) := by decide
    cases none.symm.trans applied
  · rintro ⟨cs,agrees⟩
    have created : columns (buildTableSchema [text "a",text "a-"]) = some [text "a",text "a"] := schemaRead _
    obtain rfl : [text "a",text "a"] = cs := Option.some.inj (created.symm.trans agrees.created)
    have apart := agrees.apart
    revert apart
    decide

end Kraken.Hub.Pivot
