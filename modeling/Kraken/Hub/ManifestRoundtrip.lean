import Mathlib.Tactic
import Kraken.Hub.ManifestLines

/-! Which notebooks, cells and pivots a manifest restores. -/
namespace Kraken.Hub.Manifest
open Utf8 (Unicode runes)
open Strconv (Quote Unquote quote newline quoteShape trimQuote trimQuoteSpace quoteSolid)
open Strings (TrimSpace Fields IsSpace runs space joined)
open Ulid (ULID)
open Rfc3339 (Time Stated)

/-! Single values. -/

theorem readValue {m : Member Value} {v : Leaf} (value : m.value = .leaf v) (exported : m.exported = true)
    (texts : ∀ l, v ≠ .texts l) (blob : ∀ s, v ≠ .blob s) (line : Bytes) : readMember line m.tag m =
      (parseString v (TrimSpace (line.drop m.tag.length))).map
        fun v => ⟨m.name,m.tag,m.exported,.leaf v⟩ := by
  unfold readMember
  simp only
  rw [if_neg (by simp [exported]),value]
  cases v with
  | texts l => exact absurd rfl (texts l)
  | blob s => exact absurd rfl (blob s)
  | _ => rfl

theorem cardValue {u : Unicode} {m : Member Value} {v : Leaf} (value : m.value = .leaf v)
    (kept : archived m = true) (tagged : m.tag ≠ []) (texts : ∀ l, v ≠ .texts l)
    (blob : ∀ s, v ≠ .blob s) :
    card u m = (parseValue u v).map fun t => [m.tag ++ space::t] := by
  obtain ⟨exported,archive⟩ := archivedSome.mp kept
  unfold card
  simp only
  rw [if_neg (by simp [exported]),if_neg tagged,if_neg archive,value]
  cases v with
  | texts l => exact absurd rfl (texts l)
  | blob s => exact absurd rfl (blob s)
  | _ => rfl

/- The declared tag of a member. -/
structure Labelled (m : Member Value) : Prop where
  kept : archived m = true
  tagged : m.tag ≠ []
  size : m.tag.length ≤ 100
  solid : space ∉ m.tag

def lineSize (u : Unicode) (m : Member Value) (s : Bytes) : Nat := m.tag.length + 1 + (Quote u s).length

/- A quoted value comes back when its line is short and its text stands for it. -/
theorem keptValue {u : Unicode} {m : Member Value} (labelled : Labelled m) {v : Leaf}
    (value : m.value = .leaf v) (texts : ∀ l, v ≠ .texts l) (blob : ∀ s, v ≠ .blob s)
    (same : (∀ l, v.zero ≠ .texts l) ∧ ∀ s, v.zero ≠ .blob s) {w : Bytes}
    (text : parseValue u v = some (Quote u w)) : Kept u m ↔
      lineSize u m w < maxTokenSize ∧ parseString v.zero (Quote u w) = some v := by
  have exported := (archivedSome.mp labelled.kept).1
  have lines := cardValue (u := u) value labelled.kept labelled.tagged texts blob
  rw [text,Option.map_some] at lines
  have value' : m.zero.value = .leaf v.zero := by
    rw [Member.zero,value]
    rfl
  have size : short (m.tag ++ space::Quote u w) = true ↔ lineSize u m w < maxTokenSize := by
    rw [short,decide_eq_true_eq,lineSize,List.length_append,List.length_cons,← Nat.add_assoc,
      Nat.add_right_comm]
  have read : [m.tag ++ space::Quote u w].foldlM readOwn m.zero =
      (parseString v.zero (Quote u w)).map fun v => ⟨m.name,m.tag,m.exported,.leaf v⟩ := by
    have one : readOwn m.zero (m.tag ++ space::Quote u w) =
        (parseString v.zero (Quote u w)).map fun v => ⟨m.name,m.tag,m.exported,.leaf v⟩ := by
      have found := readValue (m := m.zero) value' exported same.1 same.2 (m.tag ++ space::Quote u w)
      rw [show m.zero.tag = m.tag from rfl,List.drop_left,trimQuoteSpace] at found
      rw [readOwn,cutTag labelled.solid]
      exact found
    rw [List.foldlM_cons,one]
    cases parseString v.zero (Quote u w) <;> rfl
  have whole : m = ⟨m.name,m.tag,m.exported,.leaf v⟩ := by rw [← value]
  constructor
  · rintro ⟨ls,written,fits,back⟩
    rw [lines] at written
    cases written
    refine ⟨size.mp (fits _ List.mem_cons_self),?_⟩
    rw [read] at back
    obtain ⟨v',parsed,eq⟩ := Option.map_eq_some_iff.mp back
    have here := congrArg Member.value eq
    simp only [value,Value.leaf.injEq] at here
    rw [parsed,here]
  · rintro ⟨fits,parsed⟩
    refine ⟨_,lines,fun l member => ?_,?_⟩
    · rw [List.mem_singleton.mp member]
      exact size.mpr fits
    · rw [read,parsed,Option.map_some,← whole]

theorem parseQuote (u : Unicode) (v : Leaf) (w : Bytes) : parseString v (Quote u w) = typed v w := by
  rw [parseString,trimQuote,Strconv.unquoteQuote,Option.bind_some]

theorem keptId {u : Unicode} {m : Member Value} (labelled : Labelled m) {id : ULID}
    (value : m.value = .leaf (.ulid id)) : Kept u m := by
  have size : (Quote u (Ulid.String id)).length = 28 := by
    rw [(Ulid.stringSigns id).quoted u]
    simp [Ulid.stringLength]
  refine (keptValue labelled value (by simp) (by simp) ⟨by simp [Leaf.zero],by simp [Leaf.zero]⟩
    rfl).mpr ⟨?_,?_⟩
  · have := labelled.size
    rw [lineSize,size,maxTokenSize]
    omega
  · rw [parseQuote]
    exact congrArg (Option.map Leaf.ulid) (Ulid.parseString id)

theorem keptText {u : Unicode} {m : Member Value} (labelled : Labelled m) {s : Bytes}
    (value : m.value = .leaf (.text s)) : Kept u m ↔ lineSize u m s < maxTokenSize := by
  rw [keptValue labelled value (by simp) (by simp) ⟨by simp [Leaf.zero],by simp [Leaf.zero]⟩ rfl,
    parseQuote]
  exact and_iff_left rfl

theorem keptTime {u : Unicode} {m : Member Value} (labelled : Labelled m) {t : Time}
    (value : m.value = .leaf (.time t)) : Kept u m ↔ Stated t := by
  rw [keptValue labelled value (by simp) (by simp) ⟨by simp [Leaf.zero],by simp [Leaf.zero]⟩ rfl,
    parseQuote]
  have back : typed (Leaf.time t).zero (Rfc3339.Format t) = some (.time t) ↔ Stated t := by
    rw [← Rfc3339.parseFormat]
    exact (Option.map_injective fun a b => Leaf.time.inj).eq_iff (b := some t)
  rw [back]
  refine and_iff_right_of_imp fun stated => ?_
  have long := Rfc3339.formatLength stated
  have := labelled.size
  rw [lineSize,(Rfc3339.signFormat t).quoted u,maxTokenSize]
  simp only [List.length_append,List.length_cons,List.length_nil]
  omega

/-! Lists of structures. -/

def readEntry (tag : Bytes) (kinds : List (Member Unit)) (zero : List (Member Leaf)) (line : Bytes) :
    Option (List (Member Leaf)) :=
  readElement (quotedValues (TrimSpace (line.drop tag.length))) 0 kinds zero

theorem readStructs {m : Member Value} {zero : List (Member Leaf)} {vs : List (List (Member Leaf))}
    (value : m.value = .structs zero vs) (exported : m.exported = true) {kinds : List (Member Unit)}
    (known : matchingTags m.tag NBarTypes = some (some kinds)) (line : Bytes) :
    readMember line m.tag m = (readEntry m.tag kinds zero line).map fun e =>
      ⟨m.name,m.tag,m.exported,.structs zero (vs ++ [e])⟩ := by
  unfold readMember
  simp only
  rw [if_neg (by simp [exported]),value]
  simp only [known,Option.bind_some,Option.elim_some,Option.map_map]
  rfl

theorem cardStructs {u : Unicode} {m : Member Value} {zero : List (Member Leaf)}
    {vs : List (List (Member Leaf))} (value : m.value = .structs zero vs) (kept : archived m = true)
    (tagged : m.tag ≠ []) {kinds : List (Member Unit)}
    (known : matchingTags m.tag NBarTypes = some (some kinds)) :
    card u m = vs.mapM fun e => (element u e kinds).map fun t => m.tag ++ space::t := by
  obtain ⟨exported,archive⟩ := archivedSome.mp kept
  unfold card
  simp only
  rw [if_neg (by simp [exported]),if_neg tagged,if_neg archive,value]
  simp only [List.mapM_map,known]
  rfl

/- Entries are added in the order of their lines. -/
theorem entriesRead {name : String} {tag : Bytes} (solid : space ∉ tag) {kinds : List (Member Unit)}
    (known : matchingTags tag NBarTypes = some (some kinds)) (zero : List (Member Leaf))
    {ls : List Bytes} (tagged : ∀ l ∈ ls, ∃ t, l = tag ++ space::t) (vs : List (List (Member Leaf))) :
    ls.foldlM readOwn ⟨name,tag,true,.structs zero vs⟩ =
      (ls.mapM (readEntry tag kinds zero)).map fun es => ⟨name,tag,true,.structs zero (vs ++ es)⟩ := by
  induction ls generalizing vs with
  | nil => simp
  | cons l ls ih =>
    obtain ⟨t,rfl⟩ := tagged l List.mem_cons_self
    have one : readOwn ⟨name,tag,true,.structs zero vs⟩ (tag ++ space::t) =
        (readEntry tag kinds zero (tag ++ space::t)).map fun e =>
          ⟨name,tag,true,.structs zero (vs ++ [e])⟩ := by
      rw [readOwn,cutTag solid]
      exact readStructs rfl rfl known _
    rw [List.foldlM_cons,one,List.mapM_cons]
    cases readEntry tag kinds zero (tag ++ space::t) with
    | none => rfl
    | some e =>
      rw [Option.map_some]
      refine (ih (fun l member => tagged l (List.mem_cons_of_mem _ member)) (vs ++ [e])).trans ?_
      cases ls.mapM (readEntry tag kinds zero) with
      | none => rfl
      | some es => simp

theorem keptEntries {u : Unicode} {m : Member Value} (labelled : Labelled m)
    {zero : List (Member Leaf)} {vs : List (List (Member Leaf))} (value : m.value = .structs zero vs)
    {kinds : List (Member Unit)} (known : matchingTags m.tag NBarTypes = some (some kinds)) :
    Kept u m ↔ ∀ e ∈ vs, ∃ t, element u e kinds = some t ∧ m.tag.length + 1 + t.length < maxTokenSize ∧
      readEntry m.tag kinds zero (m.tag ++ space::t) = some e := by
  have exported := (archivedSome.mp labelled.kept).1
  have fits (t : Bytes) : short (m.tag ++ space::t) = true ↔
      m.tag.length + 1 + t.length < maxTokenSize := by
    rw [short,decide_eq_true_eq,List.length_append,List.length_cons,Nat.add_assoc,Nat.add_comm 1]
  have back {ls : List Bytes} (tagged : ∀ l ∈ ls, ∃ t, l = m.tag ++ space::t) :
      ls.foldlM readOwn m.zero = some m ↔
        List.Forall₂ (fun l e => readEntry m.tag kinds zero l = some e) ls vs := by
    have start : m.zero = ⟨m.name,m.tag,true,.structs zero []⟩ := by
      rw [Member.zero,value,exported]
      rfl
    have whole : m = ⟨m.name,m.tag,true,.structs zero vs⟩ := by rw [← value,← exported]
    rw [start,entriesRead labelled.solid known zero tagged [],← Fallible.mapMSome,
      Option.map_eq_some_iff]
    constructor
    · rintro ⟨es,read,same⟩
      have here := congrArg Member.value same
      simp only [value,List.nil_append,Value.structs.injEq,true_and] at here
      rw [read,here]
    · intro read
      exact ⟨vs,read,whole.symm⟩
  rw [Kept,cardStructs value labelled.kept labelled.tagged known]
  constructor
  · rintro ⟨ls,lines,small,read⟩ e member
    have all := Fallible.mapMSome.mp lines
    have tagged : ∀ l ∈ ls, ∃ t, l = m.tag ++ space::t := fun l inside => by
      obtain ⟨_,_,line⟩ := Fallible.related all inside
      obtain ⟨t,_,rfl⟩ := Option.map_eq_some_iff.mp line
      exact ⟨t,rfl⟩
    obtain ⟨l,inside,line,here⟩ := Fallible.both all ((back tagged).mp read).flip member
    obtain ⟨t,text,rfl⟩ := Option.map_eq_some_iff.mp line
    exact ⟨t,text,(fits t).mp (small _ inside),here⟩
  · intro each
    have all : List.Forall₂ (fun e l => (element u e kinds).map (fun t => m.tag ++ space::t) = some l)
        vs (vs.map fun e => m.tag ++ space::(element u e kinds).getD []) := by
      rw [List.forall₂_map_right_iff,List.forall₂_same]
      intro e member
      obtain ⟨t,text,_⟩ := each e member
      rw [text]
      rfl
    have from' : ∀ l ∈ vs.map (fun e => m.tag ++ space::(element u e kinds).getD []),
        ∃ t, l = m.tag ++ space::t ∧ short l := by
      intro l member
      obtain ⟨e,inside,rfl⟩ := List.mem_map.mp member
      obtain ⟨t,text,small,_⟩ := each e inside
      refine ⟨_,rfl,?_⟩
      rw [text]
      exact (fits t).mpr small
    refine ⟨_,Fallible.mapMSome.mpr all,fun l member => (from' l member).choose_spec.2,?_⟩
    refine (back fun l member => (from' l member).imp fun _ both => both.1).mpr ?_
    rw [List.forall₂_map_left_iff,List.forall₂_same]
    intro e member
    obtain ⟨t,text,_,read⟩ := each e member
    rw [text]
    exact read

/-! Applied pivots. -/

theorem entriesText (u : Unicode) (o : Bytes) (l : List Bytes) :
    ∃ y, ((o::l).flatMap fun s => Quote u s ++ [space]) = quote::y ++ [quote] ++ [space] ∧
      Quote u o <+: quote::y ++ [quote] := by
  induction l generalizing o with
  | nil => exact ⟨Strconv.body u o.length o,by simp [quoteShape],List.prefix_rfl⟩
  | cons o' l ih =>
    obtain ⟨y,text,_⟩ := ih o'
    refine ⟨Strconv.body u o.length o ++ quote::space::quote::y,?_,?_⟩
    · rw [List.flatMap_cons,text,quoteShape]
      simp
    · rw [quoteShape]
      exact ⟨space::quote::y ++ [quote],by simp⟩

theorem pivotElement (u : Unicode) (a : PivotApplication) : element u a.members NBarPivotManifest =
    some (Quote u (Ulid.String a.Pivot) ++ [space] ++
      ((a.On.flatMap fun s => Quote u s ++ [space]) ++ [space])) := by
  have pivot : matchingTags (Bytes.text "pivot") a.members = some (some (.ulid a.Pivot)) := rfl
  have on : matchingTags (Bytes.text "on") a.members = some (some (.texts a.On)) := rfl
  rw [element,NBarPivotManifest,List.mapM_cons,List.mapM_cons,List.mapM_nil,pivot,on]
  simp [parseValue]

theorem marksClear {s : Bytes} (solid : space ∉ s) (quoted : Bool) :
    ∀ p ∈ marks quoted s, p.2 = false := by
  induction s generalizing quoted with
  | nil => simp [marks]
  | cons b s ih =>
    obtain ⟨other,later⟩ := not_or.mp (mt List.mem_cons.mpr solid)
    intro p member
    rw [marks] at member
    rcases List.mem_cons.mp member with rfl | member
    · simp [Ne.symm other]
    · exact ih later _ p member

theorem marksJoined (s : Bytes) (quoted : Bool) : joined (marks quoted s) = s := by
  induction s generalizing quoted with
  | nil => rfl
  | cons b s ih => rw [marks,Strings.joinedCons,ih,List.singleton_append]

theorem marksQuoted {s : Bytes} (calm : quote ∉ s) (t : Bytes) (quoted : Bool) :
    marks quoted (s ++ t) = marks quoted s ++ marks quoted t := by
  induction s with
  | nil => rfl
  | cons b s ih =>
    obtain ⟨other,later⟩ := not_or.mp (mt List.mem_cons.mpr calm)
    rw [List.cons_append,marks,marks,if_neg (Ne.symm other)]
    simp only [List.cons_append]
    rw [ih later]

theorem marksBlank (t : Bytes) : marks false (space::t) = ([space],true)::marks false t := rfl

theorem marksOpen (t : Bytes) : marks false (quote::t) = ([quote],false)::marks true t := rfl

theorem marksClose (t : Bytes) : marks true (quote::t) = ([quote],false)::marks false t := rfl

/- The identifier in front is the first word. -/
theorem idWords (u : Unicode) (id : ULID) (t : Bytes) :
    quotedValues (Quote u (Ulid.String id) ++ space::t) =
      Quote u (Ulid.String id)::quotedValues t := by
  have calm := (Ulid.stringSigns id).calm
  have solid := (Ulid.stringSigns id).solid
  rw [(Ulid.stringSigns id).quoted u,quotedValues]
  have parts : marks false (quote::Ulid.String id ++ [quote] ++ space::t) =
      (([quote],false)::marks true (Ulid.String id) ++ [([quote],false)]) ++
        ([space],true)::marks false t := by
    simp only [List.cons_append,List.append_assoc,List.nil_append]
    rw [marksOpen,marksQuoted calm,marksClose,marksBlank]
  have clear : ∀ p ∈ ([quote],false)::marks true (Ulid.String id) ++ [([quote],false)], p.2 = false := by
    intro p member
    rcases List.mem_append.mp member with front | last
    · rcases List.mem_cons.mp front with rfl | inside
      · rfl
      · exact marksClear solid true p inside
    · rw [List.mem_singleton.mp last]
  have whole : joined (([quote],false)::marks true (Ulid.String id) ++ [([quote],false)]) =
      quote::Ulid.String id ++ [quote] := by
    have middle := marksJoined (Ulid.String id) true
    rw [joined] at middle ⊢
    simp [middle]
  rw [parts,Strings.runsMarked [] clear,whole,List.nil_append,if_neg (by simp)]
  rfl

/- A text without blanks is one word. -/
theorem wordAlone {s : Bytes} (solid : space ∉ s) (some' : s ≠ []) : quotedValues s = [s] := by
  rw [quotedValues,Strings.runsClear [] (marksClear solid false),marksJoined,List.nil_append,
    if_neg some']

theorem pivotRead (words : List Bytes) :
    readElement words 0 NBarPivotManifest (PivotApplication.members ⟨fun _ => 0,0,[]⟩) =
      (words[0]?.bind (parseString (.ulid fun _ => 0))).bind fun p =>
        (words[1]?.bind (parseString (.texts []))).map fun o =>
          [⟨"Pivot",Bytes.text "pivot",true,p⟩,⟨"Join",Bytes.text "join",true,.int 0⟩,
            ⟨"On",Bytes.text "on",true,o⟩] := by
  rw [NBarPivotManifest,PivotApplication.members,readElement]
  cases words[0]? with
  | none => rfl
  | some w =>
    cases read : parseString (.ulid fun _ => 0) w with
    | none => simp [setNamed,read,readElement]
    | some p =>
      cases second : words[1]? with
      | none => simp [setNamed,read,readElement,second]
      | some w' =>
        cases read' : parseString (.texts []) w' with
        | none => simp [setNamed,read,read',readElement,second]
        | some o => simp [setNamed,read,read',readElement,second]

/- The first of the quoted texts is cut at white space. -/
theorem firstEntry (u : Unicode) {o : Bytes} {l : List Bytes} {y : Bytes}
    (text : ((o::l).flatMap fun s => Quote u s ++ [space]) = quote::y ++ [quote] ++ [space])
    (front : Quote u o <+: quote::y ++ [quote]) :
    (quotedValues (quote::y ++ [quote]))[0]?.bind (parseString (.texts [])) = some (.texts (o::l)) ↔
      l = [] ∧ Fields o = [o] := by
  constructor
  · intro read
    obtain ⟨h,t,words,start,within⟩ := @Strings.runsHead [quote] (by simp)
      (marks true (y ++ [quote]))
    have shape : quotedValues (quote::y ++ [quote]) = h::t := words
    rw [shape,List.getElem?_cons_zero,Option.bind_some] at read
    rw [parseString] at read
    obtain ⟨s,unquoted,value⟩ := Option.bind_eq_some_iff.mp read
    rw [marksJoined,List.singleton_append,← List.cons_append] at within
    obtain ⟨h',rfl⟩ := start
    have trimmed := (Strings.trimPrefix (a := quote) (by decide) (by decide) h').trans within
    obtain ⟨z,whole⟩ := front
    rw [← whole] at trimmed
    obtain ⟨_,rfl⟩ := Strconv.unquoteFront u unquoted trimmed
    have cut : Fields s = s::l := by simpa [typed] using value
    have alone := Strings.fieldsOnce cut
    exact ⟨alone,by rw [cut,alone]⟩
  · rintro ⟨rfl,once⟩
    have clear := ((Strings.fieldsSelf o).mp once).2
    have solid : space ∉ o := by
      intro member
      exact absurd (clear _ (Utf8.runesAscii (by decide) member)) (by decide)
    have whole : quote::y ++ [quote] = Quote u o := by
      rw [List.flatMap_cons,List.flatMap_nil,List.append_nil] at text
      exact (List.append_cancel_right text).symm
    rw [whole,wordAlone (quoteSolid u solid) (by simp [quoteShape]),List.getElem?_cons_zero,
      Option.bind_some,parseQuote]
    exact congrArg (fun l => some (Leaf.texts l)) once

theorem pivotKept (u : Unicode) (a : PivotApplication) :
    (∃ t, element u a.members NBarPivotManifest = some t ∧ 6 + 1 + t.length < maxTokenSize ∧
      readEntry (Bytes.text "pivots") NBarPivotManifest (PivotApplication.members ⟨fun _ => 0,0,[]⟩)
        (Bytes.text "pivots" ++ space::t) = some a.members) ↔
    a.Join = 0 ∧ ∃ o, a.On = [o] ∧ o ≠ [] ∧ (∀ r ∈ runes o, IsSpace r = false) ∧
      38 + (Quote u o).length < maxTokenSize := by
  have idLength : (Quote u (Ulid.String a.Pivot)).length = 28 := by
    rw [(Ulid.stringSigns a.Pivot).quoted u]
    simp [Ulid.stringLength]
  have ulid : parseString (.ulid fun _ => 0) (Quote u (Ulid.String a.Pivot)) = some (.ulid a.Pivot) := by
    rw [parseQuote]
    exact congrArg (Option.map Leaf.ulid) (Ulid.parseString a.Pivot)
  rw [pivotElement]
  simp only [Option.some.injEq,exists_eq_left',readEntry,List.drop_left]
  cases fields : a.On with
  | nil =>
    have line : TrimSpace (space::(Quote u (Ulid.String a.Pivot) ++ [space] ++
        (([].flatMap fun s => Quote u s ++ [space]) ++ [space]))) = Quote u (Ulid.String a.Pivot) := by
      have trimmed := Strings.trimBoth (a := quote) (b := quote) (by decide) (by decide) (by decide)
        (by decide) (Strconv.body u (Ulid.String a.Pivot).length (Ulid.String a.Pivot)) 2
      simpa [quoteShape,List.replicate] using trimmed
    rw [line,wordAlone (quoteSolid u (Ulid.stringSigns a.Pivot).solid) (by simp [quoteShape]),pivotRead]
    simp
  | cons o l =>
    obtain ⟨y,text,front⟩ := entriesText u o l
    have line : TrimSpace (space::(Quote u (Ulid.String a.Pivot) ++ [space] ++
        (((o::l).flatMap fun s => Quote u s ++ [space]) ++ [space]))) =
          Quote u (Ulid.String a.Pivot) ++ space::(quote::y ++ [quote]) := by
      have trimmed := Strings.trimBoth (a := quote) (b := quote) (by decide) (by decide) (by decide)
        (by decide) (Strconv.body u (Ulid.String a.Pivot).length (Ulid.String a.Pivot) ++
          quote::space::quote::y) 2
      rw [text]
      simpa [quoteShape,List.replicate] using trimmed
    rw [line,idWords,pivotRead]
    simp only [List.getElem?_cons_zero,List.getElem?_cons_succ,Option.bind_some,ulid]
    have size : 6 + 1 + (Quote u (Ulid.String a.Pivot) ++ [space] ++
        (((o::l).flatMap fun s => Quote u s ++ [space]) ++ [space])).length =
          37 + ((o::l).flatMap fun s => Quote u s ++ [space]).length := by
      simp only [List.length_append,idLength,List.length_singleton]
      omega
    rw [size]
    have lone : (quotedValues (quote::y ++ [quote]))[0]?.bind (parseString (.texts [])) =
        some (.texts (o::l)) ↔ l = [] ∧ Fields o = [o] := firstEntry u text front
    constructor
    · rintro ⟨small,read⟩
      obtain ⟨v,word,same⟩ := Option.map_eq_some_iff.mp read
      simp only [PivotApplication.members,fields,List.cons.injEq,Member.mk.injEq,Leaf.int.injEq] at same
      rw [same.2.2.1.2.2.2] at word
      obtain ⟨rfl,once⟩ := lone.mp word
      obtain ⟨some',clear⟩ := (Strings.fieldsSelf o).mp once
      refine ⟨same.2.1.2.2.2.symm,o,rfl,some',clear,?_⟩
      simp only [List.flatMap_cons,List.flatMap_nil,List.append_nil,List.length_append,
        List.length_singleton] at small
      omega
    · rintro ⟨join,o',single,some',clear,small⟩
      obtain ⟨rfl,rfl⟩ := List.cons.inj single
      refine ⟨?_,?_⟩
      · simp only [List.flatMap_cons,List.flatMap_nil,List.append_nil,List.length_append,
          List.length_singleton]
        omega
      · rw [lone.mpr ⟨rfl,(Strings.fieldsSelf o).mpr ⟨some',clear⟩⟩,Option.map_some,
          PivotApplication.members,join,fields]

/-! The messages. -/

def Short (u : Unicode) (tag : String) (s : Bytes) : Prop :=
  tag.length + 1 + (Quote u s).length < maxTokenSize

/- A pivot that is applied on one field of a name without white space, as an inner join. -/
def Applied (u : Unicode) (a : PivotApplication) : Prop :=
  a.Join = 0 ∧ ∃ o, a.On = [o] ∧ o ≠ [] ∧ (∀ r ∈ runes o, IsSpace r = false) ∧
    38 + (Quote u o).length < maxTokenSize

def declaredTag (t : Bytes) : Bool :=
  decide (t ≠ []) && decide (t.length ≤ 100) && t.all fun b => decide (0x20 < b.toNat)

theorem declaredTagged {t : Bytes} (fit : declaredTag t = true) :
    t ≠ [] ∧ t.length ≤ 100 ∧ ∀ b ∈ t, 0x20 < b.toNat := by
  simpa [declaredTag,and_assoc] using fit

theorem labelled {t : Bytes} (fit : declaredTag t = true) (archive : t ≠ Bytes.text "-") (name : String)
    (v : Value) : Labelled ⟨name,t,true,v⟩ := by
  obtain ⟨tagged,size,solid⟩ := declaredTagged fit
  exact ⟨archivedSome.mpr ⟨rfl,archive⟩,tagged,size,fun member => absurd (solid _ member) (by decide)⟩

def marker : Member Value := ⟨"_",[],false,.leaf .other⟩

/- What is left to show of a type, all of it about the declared names and tags. -/
theorem readsBackFiltered (u : Unicode) (obj : Object)
    (unexported : ∃ n, obj.filter (fun m => !m.exported) = List.replicate n marker)
    (plain : ((obj.filter Member.exported).map Member.tag).all declaredTag = true)
    (distinct : ((obj.filter archived).map Member.tag).Nodup) :
    ReadsBack u obj ↔ ∀ m ∈ obj.filter archived, Kept u m := by
  have declared : Declared obj := by
    refine ⟨fun m known other => ?_,fun m known exported => ?_,distinct⟩
    · obtain ⟨n,all⟩ := unexported
      have here : m ∈ obj.filter fun m => !m.exported := List.mem_filter.mpr ⟨known,by simp [other]⟩
      rw [all] at here
      rw [List.eq_of_mem_replicate here]
      rfl
    · exact declaredTagged (List.all_eq_true.mp plain m.tag
        (List.mem_map_of_mem (List.mem_filter.mpr ⟨known,exported⟩)))
  rw [readsBackEach u declared]
  simp only [List.mem_filter,and_imp]

theorem playbookRestored (u : Unicode) (p : Playbook) : ReadsBack u p.members ↔
    p.Cells = [] ∧ Short u "title" p.Title ∧ Stated p.Created ∧ Stated p.LastEdit := by
  rw [readsBackFiltered u p.members ⟨1,rfl⟩ rfl
    (show List.Nodup [Bytes.text "id",Bytes.text "title",Bytes.text "cells",Bytes.text "created",
      Bytes.text "lastedit"] by decide)]
  have own : p.members.filter archived = [⟨"ID",Bytes.text "id",true,.leaf (.ulid p.ID)⟩,
      ⟨"Title",Bytes.text "title",true,.leaf (.text p.Title)⟩,
      ⟨"Cells",Bytes.text "cells",true,cells p.Cells⟩,
      ⟨"Created",Bytes.text "created",true,.leaf (.time p.Created)⟩,
      ⟨"LastEdit",Bytes.text "lastedit",true,.leaf (.time p.LastEdit)⟩] := rfl
  have id : Kept u ⟨"ID",Bytes.text "id",true,.leaf (.ulid p.ID)⟩ :=
    keptId (labelled (by decide) (by decide) _ _) rfl
  have title : Kept u ⟨"Title",Bytes.text "title",true,.leaf (.text p.Title)⟩ ↔
      Short u "title" p.Title := keptText (labelled (by decide) (by decide) _ _) rfl
  have created : Kept u ⟨"Created",Bytes.text "created",true,.leaf (.time p.Created)⟩ ↔
      Stated p.Created := keptTime (labelled (by decide) (by decide) _ _) rfl
  have edited : Kept u ⟨"LastEdit",Bytes.text "lastedit",true,.leaf (.time p.LastEdit)⟩ ↔
      Stated p.LastEdit := keptTime (labelled (by decide) (by decide) _ _) rfl
  have none : Kept u ⟨"Cells",Bytes.text "cells",true,cells p.Cells⟩ ↔ p.Cells = [] := by
    have known : matchingTags (Bytes.text "cells") NBarTypes = some (some NBarCellManifest) := rfl
    refine (keptEntries (labelled (t := Bytes.text "cells") (by decide) (by decide) "Cells" (cells p.Cells)) rfl
      known).trans ?_
    rw [List.forall_mem_map]
    constructor
    · intro each
      refine List.eq_nil_iff_forall_not_mem.mpr fun c member => ?_
      obtain ⟨t,text,_⟩ := each c member
      -- the first member of a cell is not exported
      exact absurd (show element u (entry c.members) NBarCellManifest = none from rfl) (by simp [text])
    · intro empty
      simp [empty]
  simp only [own,List.forall_mem_cons,id,title,none,created,edited,true_and]
  simp only [List.not_mem_nil,false_imp_iff,implies_true,and_true]
  tauto

theorem cellRestored (u : Unicode) (c : Cell) : ReadsBack u c.members ↔
    Short u "title" c.Title ∧ Stated c.Created ∧ Stated c.Timestamp ∧ ∀ a ∈ c.Pivots, Applied u a := by
  rw [readsBackFiltered u c.members ⟨1,rfl⟩ rfl
    (show List.Nodup [Bytes.text "id",Bytes.text "created",Bytes.text "timestamp",
      Bytes.text "datasource",Bytes.text "notebook",Bytes.text "pivots",Bytes.text "title"] by decide)]
  have own : c.members.filter archived = [⟨"ID",Bytes.text "id",true,.leaf (.ulid c.ID)⟩,
      ⟨"Created",Bytes.text "created",true,.leaf (.time c.Created)⟩,
      ⟨"Timestamp",Bytes.text "timestamp",true,.leaf (.time c.Timestamp)⟩,
      ⟨"DataSource",Bytes.text "datasource",true,.leaf (.ulid c.DataSource)⟩,
      ⟨"Notebook",Bytes.text "notebook",true,.leaf (.ulid c.Notebook)⟩,
      ⟨"Pivots",Bytes.text "pivots",true,pivots c.Pivots⟩,
      ⟨"Title",Bytes.text "title",true,.leaf (.text c.Title)⟩] := rfl
  have id : Kept u ⟨"ID",Bytes.text "id",true,.leaf (.ulid c.ID)⟩ :=
    keptId (labelled (by decide) (by decide) _ _) rfl
  have source : Kept u ⟨"DataSource",Bytes.text "datasource",true,.leaf (.ulid c.DataSource)⟩ :=
    keptId (labelled (by decide) (by decide) _ _) rfl
  have notebook : Kept u ⟨"Notebook",Bytes.text "notebook",true,.leaf (.ulid c.Notebook)⟩ :=
    keptId (labelled (by decide) (by decide) _ _) rfl
  have title : Kept u ⟨"Title",Bytes.text "title",true,.leaf (.text c.Title)⟩ ↔
      Short u "title" c.Title := keptText (labelled (by decide) (by decide) _ _) rfl
  have created : Kept u ⟨"Created",Bytes.text "created",true,.leaf (.time c.Created)⟩ ↔
      Stated c.Created := keptTime (labelled (by decide) (by decide) _ _) rfl
  have stamped : Kept u ⟨"Timestamp",Bytes.text "timestamp",true,.leaf (.time c.Timestamp)⟩ ↔
      Stated c.Timestamp := keptTime (labelled (by decide) (by decide) _ _) rfl
  have applied : Kept u ⟨"Pivots",Bytes.text "pivots",true,pivots c.Pivots⟩ ↔
      ∀ a ∈ c.Pivots, Applied u a := by
    have known : matchingTags (Bytes.text "pivots") NBarTypes = some (some NBarPivotManifest) := rfl
    refine (keptEntries (labelled (t := Bytes.text "pivots") (by decide) (by decide) "Pivots" (pivots c.Pivots)) rfl
      known).trans ?_
    rw [List.forall_mem_map]
    exact forall_congr' fun a => imp_congr_right fun _ => pivotKept u a
  simp only [own,List.forall_mem_cons,id,source,notebook,title,created,stamped,applied,true_and]
  simp only [List.not_mem_nil,false_imp_iff,implies_true,and_true]
  tauto

theorem pivotRestored (u : Unicode) (d : PivotDefinition) : ReadsBack u d.members ↔
    Short u "name" d.Name ∧ Short u "type" d.type := by
  rw [readsBackFiltered u d.members ⟨0,rfl⟩ rfl
    (show List.Nodup [Bytes.text "id",Bytes.text "name",Bytes.text "type"] by decide)]
  have own : d.members.filter archived = [⟨"ID",Bytes.text "id",true,.leaf (.ulid d.ID)⟩,
      ⟨"Name",Bytes.text "name",true,.leaf (.text d.Name)⟩,
      ⟨"Type",Bytes.text "type",true,.leaf (.text d.type)⟩] := rfl
  have id : Kept u ⟨"ID",Bytes.text "id",true,.leaf (.ulid d.ID)⟩ :=
    keptId (labelled (by decide) (by decide) _ _) rfl
  have name : Kept u ⟨"Name",Bytes.text "name",true,.leaf (.text d.Name)⟩ ↔ Short u "name" d.Name :=
    keptText (labelled (by decide) (by decide) _ _) rfl
  have type : Kept u ⟨"Type",Bytes.text "type",true,.leaf (.text d.type)⟩ ↔ Short u "type" d.type :=
    keptText (labelled (by decide) (by decide) _ _) rfl
  simp only [own,List.forall_mem_cons,id,name,type,true_and]
  simp only [List.not_mem_nil,false_imp_iff,implies_true,and_true]

/-- Notebooks come back without cells, and cells when each pivot is applied on one field without
white space; everywhere times have to be those of their text, and lines have to fit the scanner. -/
theorem manifestRestored (u : Unicode) :
    (∀ p : Playbook, ReadsBack u p.members ↔
      p.Cells = [] ∧ Short u "title" p.Title ∧ Stated p.Created ∧ Stated p.LastEdit) ∧
    (∀ c : Cell, ReadsBack u c.members ↔ Short u "title" c.Title ∧ Stated c.Created ∧
      Stated c.Timestamp ∧ ∀ a ∈ c.Pivots, Applied u a) ∧
    ∀ d : PivotDefinition, ReadsBack u d.members ↔ Short u "name" d.Name ∧ Short u "type" d.type :=
  ⟨playbookRestored u,cellRestored u,pivotRestored u⟩

/- A pivot on two fields, and a notebook with a cell. -/
def twoFields : Cell :=
  {Cell.zero with Pivots := [⟨fun _ => 0,0,[Bytes.text "user",Bytes.text "host"]⟩]}

def oneCell : Playbook :=
  ⟨0,fun _ => 0,Bytes.text "Logs",[Cell.zero],Rfc3339.zero,Rfc3339.zero,[],fun _ => 0⟩

theorem notRestored :
    ¬ ReadsBack Utf8.ascii twoFields.members ∧ ¬ ReadsBack Utf8.ascii oneCell.members := by
  refine ⟨fun back => ?_,fun back => ?_⟩
  · obtain ⟨_,o,single,_⟩ := ((cellRestored _ _).mp back).2.2.2 _ List.mem_cons_self
    exact absurd single (by simp)
  · exact absurd ((playbookRestored _ _).mp back).1 (by simp [oneCell])

end Kraken.Hub.Manifest
