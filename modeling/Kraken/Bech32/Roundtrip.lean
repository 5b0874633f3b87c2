import Mathlib.Tactic
import Kraken.Lib.Bytes
import Kraken.Lib.Fallible
import Kraken.Lib.LetterCase
import Kraken.Lib.Regroup
import Kraken.Bech32.Encoding
import Kraken.Bech32.Groups
import Kraken.Bech32.Polymod

/-! What is encoded is decoded, and a text that is decoded is the encoding of what was read. -/
namespace Kraken.Bech32
open LetterCase (Letters ToLower ToUpper Ascii lowerByte upperByte asciiAppend asciiCons lowerPlain
  upperPlain)
open Regroup (Fit fitAppend fitCons)

/-! The symbols. -/

theorem symbolKnown : ∀ p < 2^5, (symbol p).toNat < 0x80 ∧ IndexRune charset (symbol p).toNat = some p ∧
    lowerByte (symbol p) = symbol p ∧ symbol p ≠ one := by decide

theorem symbolSame {p q : Nat} (low : p < 2^5) (low' : q < 2^5) (same : symbol p = symbol q) : p = q := by
  have known := (symbolKnown p low).2.1
  rw [same,(symbolKnown q low').2.1] at known
  exact (Option.some.inj known).symm

theorem symbolsSame {l m : List Nat} (fit : Fit 5 l) (fit' : Fit 5 m) (same : l.map symbol = m.map symbol) :
    l = m := by
  induction l generalizing m with
  | nil => exact (List.map_eq_nil_iff.mp same.symm).symm
  | cons p l ih =>
    obtain ⟨q,m,rfl,front,rest⟩ := List.map_eq_cons_iff.mp same.symm
    obtain ⟨low,fit⟩ := fitCons.mp fit
    obtain ⟨low',fit'⟩ := fitCons.mp fit'
    rw [symbolSame low low' front.symm,ih fit fit' rest.symm]

theorem indexSymbol {r d : Nat} (found : IndexRune charset r = some d) : d < 2^5 ∧ (symbol d).toNat =
    r := by
  obtain ⟨inside,here,-⟩ := List.findIdx?_eq_some_iff_getElem.mp found
  have same : (symbol d).toNat = r := by
    rw [symbol,List.getD_eq_getElem?_getD,List.getElem?_eq_getElem inside]
    exact of_decide_eq_true here
  exact ⟨inside,same⟩

theorem symbolsRead {l : List (Nat × Nat)} {data : List Nat} : symbols l = .ok data ↔
    l.map Prod.snd = data.map (fun d => (symbol d).toNat) ∧ Fit 5 data := by
  induction l generalizing data with
  | nil =>
    constructor
    · intro made
      obtain rfl := Except.ok.inj made
      exact ⟨rfl,Regroup.fitNil _⟩
    · rintro ⟨same,-⟩
      rw [List.map_eq_nil_iff.mp same.symm]
      rfl
  | cons x l ih =>
    rw [symbols]
    constructor
    · intro made
      cases found : IndexRune charset x.2 with
      | none =>
        rw [found] at made
        contradiction
      | some d =>
        rw [found] at made
        cases rest : symbols l with
        | error e =>
          rw [rest] at made
          contradiction
        | ok data' =>
          rw [rest] at made
          obtain rfl := Except.ok.inj made
          obtain ⟨low,here⟩ := indexSymbol found
          obtain ⟨same,fit⟩ := ih.mp rest
          exact ⟨by rw [List.map_cons,List.map_cons,here,same],fitCons.mpr ⟨low,fit⟩⟩
    · rintro ⟨same,fit⟩
      obtain ⟨d,data',rfl,here,rest⟩ := List.map_eq_cons_iff.mp same.symm
      obtain ⟨low,fit⟩ := fitCons.mp fit
      rw [← here,(symbolKnown d low).2.1]
      dsimp only
      rw [ih.mpr ⟨rest.symm,fit⟩]
      rfl

theorem asciiSymbols {w : List Nat} (fit : Fit 5 w) : Ascii (w.map symbol) :=
    List.forall_mem_map.mpr fun p member =>
  (symbolKnown p (fit p member)).1

/- The symbols of a text. -/
theorem symbolsText {t : Bytes} (plain : Ascii t) {data : List Nat} :
    symbols (Utf8.ranged t) = .ok data ↔ t = data.map symbol ∧ Fit 5 data := by
  rw [symbolsRead,LetterCase.rangedPlain plain,← Function.comp_def UInt8.toNat symbol,← List.map_map,
    (List.map_injective_iff.mpr fun a b same => UInt8.toNat_inj.mp same).eq_iff]

theorem lowerSymbols {w : List Nat} (fit : Fit 5 w) : (w.map symbol).map lowerByte = w.map symbol := by
  rw [List.map_map]
  exact List.map_congr_left fun p member => (symbolKnown p (fit p member)).2.2.1

/- No letter is a digit in the other case. -/
theorem lowerOne {b : UInt8} : lowerByte b = one ↔ b = one := by
  rw [← UInt8.toNat_inj,← UInt8.toNat_inj,LetterCase.lowerNumber,show one.toNat = 0x31 by rfl]
  split_ifs <;> omega

theorem oneOutside {t : Bytes} {w : List Nat} (fit : Fit 5 w) (same : t.map lowerByte = w.map symbol) :
    one ∉ t := fun inside => by
  have low : one ∈ w.map symbol := same ▸ List.mem_map.mpr ⟨one,inside,lowerOne.mpr rfl⟩
  obtain ⟨p,member,here⟩ := List.mem_map.mp low
  exact (symbolKnown p (fit p member)).2.2.2 here

/-! The two parts of a text. -/

theorem lastNone {mark : UInt8} {t : Bytes} : LastIndex mark t = none ↔ mark ∉ t := by
  induction t with
  | nil => exact iff_of_true rfl List.not_mem_nil
  | cons b t ih =>
    rw [LastIndex,List.mem_cons,not_or,← ih]
    cases LastIndex mark t with
    | some i => simp
    | none => simp [eq_comm]

theorem lastAfter {mark : UInt8} (s : Bytes) {t : Bytes} (none : mark ∉ t) :
    LastIndex mark (s ++ mark::t) = some s.length := by
  induction s with
  | nil =>
    rw [List.nil_append,LastIndex,lastNone.mpr none]
    exact if_pos rfl
  | cons b s ih => rw [List.cons_append,LastIndex,ih]; rfl

theorem lastSplit {mark : UInt8} {s : Bytes} {i : Nat} (found : LastIndex mark s = some i) :
    ∃ t, s = s.take i ++ mark::t ∧ mark ∉ t ∧ (s.take i).length = i := by
  induction s generalizing i with
  | nil => contradiction
  | cons b s ih =>
    rw [LastIndex] at found
    cases later : LastIndex mark s with
    | some j =>
      rw [later] at found
      obtain rfl := Option.some.inj found
      obtain ⟨t,same,none,length⟩ := ih later
      refine ⟨t,?_,none,by rw [List.take_succ_cons,List.length_cons,length]⟩
      rw [List.take_succ_cons,List.cons_append,← same]
    | none =>
      rw [later] at found
      dsimp only at found
      split_ifs at found with here
      obtain rfl := Option.some.inj found
      exact ⟨s,by rw [here]; rfl,lastNone.mp later,rfl⟩

theorem ownPlain {s : Bytes} (own : foreign s = none) : Ascii s := by
  rw [foreign,List.find?_eq_none] at own
  refine LetterCase.plainRunes (Nat.le_refl _) fun r member => ?_
  have listed : r ∈ (Utf8.ranged s).map Prod.snd := LetterCase.rangedRunes s ▸ member
  obtain ⟨x,inside,rfl⟩ := List.mem_map.mp listed
  have clear := own x inside
  rw [decide_eq_true_iff] at clear
  omega

theorem wide : Widths 8 5 := ⟨by decide,by decide,by decide,by decide⟩

theorem narrow : Widths 5 8 := ⟨by decide,by decide,by decide,by decide⟩

theorem bytesFit (data : Bytes) : Fit 8 (data.map UInt8.toNat) :=
  List.forall_mem_map.mpr fun b _ => b.toNat_lt

theorem fitBytes {l : List Nat} (fit : Fit 8 l) : (l.map UInt8.ofNat).map UInt8.toNat = l := by
  rw [List.map_map]
  refine (List.map_congr_left fun v member => ?_).trans (List.map_id l)
  exact (UInt8.toNat_ofNat').trans (Nat.mod_eq_of_lt (fit v member))

theorem bytesBack (data : Bytes) : (data.map UInt8.toNat).map UInt8.ofNat = data := by
  rw [List.map_map]
  exact (List.map_congr_left fun b _ => UInt8.ofNat_toNat).trans (List.map_id data)

/-! No failure of a part is a panic. -/

theorem convertCalm {frombits tobits : Nat} {data : List Nat} {idx acc bits : Nat} :
    convertFrom frombits tobits idx acc bits data ≠ .error .panic := by
  induction data generalizing idx acc bits with
  | nil => simp [convertFrom]
  | cons v data ih =>
    rw [convertFrom]
    split_ifs
    · simp
    · intro failed
      dsimp only at failed
      generalize next : convertFrom frombits tobits (idx+1) _ _ data = made at failed
      cases made with
      | error e => exact ih (next.trans failed)
      | ok rest => contradiction

theorem bitsCalm {frombits tobits : Nat} {data : List Nat} {pad : Bool} :
    convertBits data frombits tobits pad ≠ .error .panic := by
  rw [convertBits]
  cases ran : convertFrom frombits tobits 0 0 0 data with
  | error e => exact fun failed => convertCalm (ran.trans (congrArg _ (Except.error.inj failed)))
  | ok out =>
    change (if _ then _ else _) ≠ _
    split_ifs <;> simp

theorem symbolsCalm (l : List (Nat × Nat)) : symbols l ≠ .error .panic := by
  induction l with
  | nil => simp [symbols]
  | cons x l ih =>
    rw [symbols]
    cases IndexRune charset x.2 with
    | none => simp
    | some d =>
      intro failed
      cases rest : symbols l with
      | error e =>
        rw [rest] at failed
        exact ih (rest.trans failed)
      | ok data =>
        rw [rest] at failed
        contradiction

/-! Texts that are laid out as an encoding, whatever their checksum. -/

def oneCase (c : Letters) (s : Bytes) : Prop := ToLower c s = s ∨ ToUpper c s = s

theorem notMixed {c : Letters} {s : Bytes} : ¬(ToLower c s ≠ s ∧ ToUpper c s ≠ s) ↔ oneCase c s := by
  rw [not_and_or,not_not,not_not,oneCase]

structure Laid (c : Letters) (hrp tail : Bytes) (w : List Nat) : Prop where
  plain : Ascii (hrp ++ one::tail)
  oneCase : oneCase c (hrp ++ one::tail)
  own : foreign hrp = none
  some : hrp ≠ []
  same : tail.map lowerByte = w.map symbol
  fit : Fit 5 w
  long : 6 ≤ w.length

section
variable {c : Letters} {hrp tail : Bytes} {w : List Nat}

theorem Laid.length (laid : Laid c hrp tail w) : tail.length = w.length := by
  have size := congrArg List.length laid.same
  rwa [List.length_map,List.length_map] at size

theorem lowerParts (plain : Ascii (hrp ++ one::tail)) :
    ToLower c (hrp ++ one::tail) = hrp.map lowerByte ++ one::tail.map lowerByte := by
  rw [lowerPlain c plain,List.map_append,List.map_cons]
  rfl

theorem upperParts (plain : Ascii (hrp ++ one::tail)) :
    ToUpper c (hrp ++ one::tail) = hrp.map upperByte ++ one::tail.map upperByte := by
  rw [upperPlain c plain,List.map_append,List.map_cons]
  rfl

theorem decodeLaid (laid : Laid c hrp tail w) : Decode c (hrp ++ one::tail) =
    if !verifyChecksum c hrp w then .error .checksum
    else (convertBits (w.take (w.length-6)) 5 8 false).map fun data => (hrp,data.map UInt8.ofNat) := by
  have filled := List.length_pos_iff.mpr laid.some
  have long := laid.long
  have size := laid.length
  have front : (hrp ++ one::tail).take hrp.length = hrp := List.take_left' rfl
  have back : (ToLower c (hrp ++ one::tail)).drop (hrp.length+1) = w.map symbol := by
    rw [lowerParts laid.plain,List.append_cons,List.drop_left' (by simp),laid.same]
  rw [Decode,if_neg (notMixed.mpr laid.oneCase),lastAfter hrp (oneOutside laid.fit laid.same)]
  dsimp only
  rw [if_neg (by rw [List.length_append,List.length_cons]; omega),front,laid.own]
  dsimp only
  rw [back,(symbolsText (asciiSymbols laid.fit)).mpr ⟨rfl,laid.fit⟩]
  change (if _ then _ else if w.length < 6 then _ else _) = _
  rw [if_neg (by omega : ¬w.length < 6)]
  cases convertBits (w.take (w.length-6)) 5 8 false <;> rfl

end

/- An ASCII text that is not laid out so is refused. Only a letter that is shorter in lower case could
make the checksum too short. -/
theorem decodeCases (c : Letters) {s : Bytes} (plain : Ascii s) :
    (∃ e, e ≠ .panic ∧ Decode c s = .error e) ∨ ∃ hrp tail w, s = hrp ++ one::tail ∧ Laid c hrp tail w := by
  rw [Decode]
  by_cases mixed : ToLower c s ≠ s ∧ ToUpper c s ≠ s
  · rw [if_pos mixed]
    exact .inl ⟨.mixedCase,by simp,rfl⟩
  rw [if_neg mixed]
  cases found : LastIndex one s with
  | none => exact .inl ⟨.separator (-1) s.length,by simp,rfl⟩
  | some pos =>
    dsimp only
    by_cases outside : pos < 1 ∨ s.length < pos+7
    · rw [if_pos outside]
      exact .inl ⟨.separator pos s.length,by simp,rfl⟩
    rw [if_neg outside]
    obtain ⟨tail,parts,absent,length⟩ := lastSplit found
    generalize s.take pos = front at parts length ⊢
    subst parts length
    cases own : foreign front with
    | some x => exact .inl ⟨.humanCharacter x.1 x.2,by simp,rfl⟩
    | none =>
      have back : (ToLower c (front ++ one::tail)).drop (front.length+1) = tail.map lowerByte := by
        rw [lowerParts plain,List.append_cons,List.drop_left' (by simp)]
      have low := LetterCase.asciiLower (asciiCons.mp (asciiAppend.mp plain).2).2
      dsimp only
      rw [back]
      cases known : symbols (Utf8.ranged (tail.map lowerByte)) with
      | error e => exact .inl ⟨e,fun same => symbolsCalm _ (known.trans (congrArg _ same)),rfl⟩
      | ok w =>
        obtain ⟨same,fit⟩ := (symbolsText low).mp known
        have size := congrArg List.length same
        rw [List.length_map,List.length_map] at size
        rw [List.length_append,List.length_cons] at outside
        exact .inr ⟨front,tail,w,rfl,plain,notMixed.mp mixed,own,List.length_pos_iff.mp (by omega),same,fit,
          by omega⟩

/- What is decoded was laid out. -/
theorem laidDecoded {c : Letters} {s hrp data : Bytes} (plain : Ascii s)
    (read : Decode c s = .ok (hrp,data)) :
    ∃ tail w, s = hrp ++ one::tail ∧ Laid c hrp tail w ∧ verifyChecksum c hrp w ∧
      convertBits (w.take (w.length-6)) 5 8 false = .ok (data.map UInt8.toNat) := by
  rcases decodeCases c plain with ⟨e,-,failed⟩ | ⟨front,tail,w,rfl,laid⟩
  · rw [failed] at read
    contradiction
  · rw [decodeLaid laid] at read
    split_ifs at read with bad
    rw [Bool.not_eq_true,Bool.not_eq_false'] at bad
    cases made : convertBits (w.take (w.length-6)) 5 8 false with
    | error e =>
      rw [made] at read
      contradiction
    | ok out =>
      rw [made] at read
      obtain ⟨rfl,rfl⟩ := Prod.mk.inj (Except.ok.inj read)
      exact ⟨tail,w,rfl,laid,bad,by rw [fitBytes (ungrouped wide narrow made).2.1,made]⟩

/- ASCII texts are read or refused. -/
theorem decodeCalm (c : Letters) {s : Bytes} (plain : Ascii s) : Decode c s ≠ .error .panic := by
  rcases decodeCases c plain with ⟨e,other,failed⟩ | ⟨front,tail,w,rfl,laid⟩
  · rw [failed]
    exact fun same => other (Except.error.inj same)
  · rw [decodeLaid laid]
    split_ifs
    · simp
    · intro failed
      cases made : convertBits (w.take (w.length-6)) 5 8 false with
      | error e =>
        rw [made] at failed
        exact bitsCalm (made.trans (congrArg _ (Except.error.inj failed)))
      | ok out =>
        rw [made] at failed
        contradiction

/- The symbols of an encoding and their checksum. -/
def wholeSymbols (c : Letters) (hrp : Bytes) (values : List Nat) : List Nat :=
  values ++ createChecksum c (ToLower c hrp) values

def written (c : Letters) (hrp : Bytes) (values : List Nat) : Bytes :=
  ToLower c hrp ++ one::(wholeSymbols c hrp values).map symbol

theorem encodeOk {c : Letters} {hrp data s : Bytes} : Encode c hrp data = .ok s ↔
    ∃ values, convertBits (data.map UInt8.toNat) 8 5 true = .ok values ∧ hrp ≠ [] ∧ foreign hrp = none ∧
      oneCase c hrp ∧
      s = if ToLower c hrp = hrp then written c hrp values else ToUpper c (written c hrp values) := by
  obtain ⟨values,made,-⟩ := padded wide (bytesFit data)
  have shape : ToLower c hrp ++ [one] ++ values.map symbol ++
      (createChecksum c (ToLower c hrp) values).map symbol = written c hrp values := by
    rw [written,wholeSymbols,List.map_append,List.append_assoc,List.append_assoc]
    rfl
  rw [Encode,made]
  change (if _ then _ else _) = _ ↔ _
  rw [shape]
  constructor
  · intro encoded
    by_cases empty : hrp.length < 1
    · rw [if_pos empty] at encoded
      contradiction
    rw [if_neg empty] at encoded
    cases own : foreign hrp with
    | some x =>
      rw [own] at encoded
      contradiction
    | none =>
      rw [own] at encoded
      by_cases mixed : ToUpper c hrp ≠ hrp ∧ ToLower c hrp ≠ hrp
      · dsimp only at encoded
        rw [if_pos mixed] at encoded
        contradiction
      dsimp only at encoded
      rw [if_neg mixed] at encoded
      exact ⟨values,rfl,List.length_pos_iff.mp (by omega),rfl,notMixed.mp fun h => mixed ⟨h.2,h.1⟩,
        (Except.ok.inj encoded).symm⟩
  · rintro ⟨values',same,some,own,cased,rfl⟩
    obtain rfl := Except.ok.inj same
    have filled := List.length_pos_iff.mpr some
    rw [if_neg (by omega),own]
    dsimp only
    rw [if_neg (fun mixed => notMixed.mpr cased ⟨mixed.2,mixed.1⟩)]

theorem wholeFit (c : Letters) (hrp : Bytes) {values : List Nat} (fit : Fit 5 values) :
    Fit 5 (wholeSymbols c hrp values) := fitAppend.mpr ⟨fit,createdFit c _ values⟩

theorem expandLower {c : Letters} {hrp : Bytes} (plain : Ascii hrp) :
    hrpExpand c (ToLower c hrp) = hrpExpand c hrp := by
  have again : ToLower c (ToLower c hrp) = ToLower c hrp := by
    rw [lowerPlain c plain,lowerPlain c (LetterCase.asciiLower plain),List.map_map]
    exact List.map_congr_left fun b _ => LetterCase.lowerLower b
  rw [hrpExpand,again,hrpExpand]

/- The checksum does not depend on the case. -/
theorem wholeVerified {c : Letters} {hrp : Bytes} (plain : Ascii hrp) {values ck : List Nat}
    (fit : Fit 5 ck)
    (six : ck.length = 6) :
    verifyChecksum c hrp (values ++ ck) ↔ ck = createChecksum c (ToLower c hrp) values := by
  rw [← verified c (ToLower c hrp) values fit six,verifyChecksum,verifyChecksum,expandLower plain]

theorem mapTwice {f g h : UInt8 → UInt8} (once : ∀ b, g (f b) = h b) (s : Bytes) : (s.map f).map g =
    s.map h := by
  rw [List.map_map]
  exact List.map_congr_left fun b _ => once b

/- The encoding of a human-readable part is laid out with that part in its own case. -/
theorem writtenLaid {c : Letters} {hrp : Bytes} {values : List Nat} (fit : Fit 5 values) (some : hrp ≠ [])
    (own : foreign hrp = none) (cased : oneCase c hrp) :
    ∃ tail, (if ToLower c hrp = hrp then written c hrp values else ToUpper c (written c hrp values)) =
      hrp ++ one::tail ∧ Laid c hrp tail (wholeSymbols c hrp values) := by
  have plain := ownPlain own
  have symbols := wholeFit c hrp fit
  have signs := asciiSymbols symbols
  have long : 6 ≤ (wholeSymbols c hrp values).length := by
    rw [wholeSymbols,List.length_append,createdLength]
    omega
  have low := lowerPlain c plain
  have whole : Ascii (written c hrp values) := by
    rw [written,low]
    exact asciiAppend.mpr ⟨LetterCase.asciiLower plain,asciiCons.mpr ⟨by decide,signs⟩⟩
  by_cases lower : ToLower c hrp = hrp
  · rw [if_pos lower]
    refine ⟨(wholeSymbols c hrp values).map symbol,by rw [written,lower],?_⟩
    rw [written,lower] at whole
    refine ⟨whole,.inl ?_,own,some,lowerSymbols symbols,symbols,long⟩
    rw [lowerParts whole,lowerSymbols symbols,← low,lower]
  · rw [if_neg lower]
    have upper : hrp.map upperByte = hrp := by
      rw [← upperPlain c plain]
      exact cased.resolve_left lower
    have raised : ToUpper c (written c hrp values) =
        hrp ++ one::((wholeSymbols c hrp values).map symbol).map upperByte := by
      rw [written,low] at whole ⊢
      rw [upperParts whole,mapTwice LetterCase.upperLower,upper]
    rw [raised]
    have whole' : Ascii (hrp ++ one::((wholeSymbols c hrp values).map symbol).map upperByte) :=
      asciiAppend.mpr ⟨plain,asciiCons.mpr ⟨by decide,LetterCase.asciiUpper signs⟩⟩
    refine ⟨_,rfl,whole',.inr ?_,own,some,?_,symbols,long⟩
    · rw [upperParts whole',upper,mapTwice LetterCase.upperUpper]
    · rw [mapTwice LetterCase.lowerUpper,lowerSymbols symbols]

theorem decodeEncoded {c : Letters} {hrp data s : Bytes} (encoded : Encode c hrp data = .ok s) :
    Decode c s = .ok (hrp,data) := by
  obtain ⟨values,made,some,own,cased,rfl⟩ := encodeOk.mp encoded
  obtain ⟨ret,made',fit,back⟩ := regrouped wide narrow (by decide) (bytesFit data)
  obtain rfl := Except.ok.inj (made.symm.trans made')
  obtain ⟨tail,same,laid⟩ := writtenLaid (c := c) fit some own cased
  have size : (wholeSymbols c hrp values).length-6 = values.length := by
    rw [wholeSymbols,List.length_append,createdLength,Nat.add_sub_cancel]
  have accepted : verifyChecksum c hrp (wholeSymbols c hrp values) :=
    (wholeVerified (ownPlain own) (createdFit c _ values) (createdLength c _ values)).mpr rfl
  rw [same,decodeLaid laid,accepted,size,wholeSymbols,List.take_left' rfl,back]
  change Except.ok (hrp,_) = _
  rw [bytesBack]

theorem partsCase {c : Letters} {hrp tail : Bytes} (plain : Ascii (hrp ++ one::tail))
    (cased : oneCase c (hrp ++ one::tail)) : oneCase c hrp := by
  have front := (asciiAppend.mp plain).1
  refine cased.imp (fun low => ?_) fun up => ?_
  · rw [lowerParts plain] at low
    rw [lowerPlain c front]
    exact (List.append_inj low (List.length_map _)).1
  · rw [upperParts plain] at up
    rw [upperPlain c front]
    exact (List.append_inj up (List.length_map _)).1

theorem encodeDecoded {c : Letters} {s hrp data : Bytes} (plain : Ascii s)
    (read : Decode c s = .ok (hrp,data)) :
    Encode c hrp data = .ok (if ToLower c hrp = hrp then ToLower c s else s) := by
  obtain ⟨tail,w,rfl,laid,accepted,made⟩ := laidDecoded plain read
  obtain ⟨fit,_,back⟩ := ungrouped wide narrow made
  have long := laid.long
  have parts := List.take_append_drop (w.length-6) w
  have front := (asciiAppend.mp plain).1
  have whole : wholeSymbols c hrp (w.take (w.length-6)) = w := by
    rw [← parts] at accepted
    have last : Fit 5 (w.drop (w.length-6)) := fun v member => laid.fit v (List.mem_of_mem_drop member)
    rw [wholeSymbols,← (wholeVerified front last (by rw [List.length_drop]; omega)).mp accepted,parts]
  have text : written c hrp (w.take (w.length-6)) = ToLower c (hrp ++ one::tail) := by
    rw [written,whole,lowerParts plain,laid.same,lowerPlain c front]
  refine encodeOk.mpr ⟨_,back,laid.some,laid.own,partsCase plain laid.oneCase,?_⟩
  rw [text]
  by_cases lower : ToLower c hrp = hrp
  · rw [if_pos lower,if_pos lower]
  · rw [if_neg lower,if_neg lower]
    have up : ToUpper c (hrp ++ one::tail) = hrp ++ one::tail := by
      refine laid.oneCase.resolve_left fun low => lower ?_
      rw [lowerParts plain] at low
      rw [lowerPlain c front]
      exact (List.append_inj low (List.length_map _)).1
    have low := LetterCase.asciiLower plain
    rw [lowerPlain c plain,upperPlain c low,mapTwice LetterCase.upperLower,← upperPlain c plain,up]

/- Both directions: the bytes come back with the human-readable part in its case, and an ASCII text is
the encoding of what was decoded from it, but for its case when that part has no letters. -/
theorem encodeDecode (c : Letters) :
    (∀ hrp data s, Encode c hrp data = .ok s → Decode c s = .ok (hrp,data)) ∧
    ∀ s hrp data, Ascii s → Decode c s = .ok (hrp,data) →
      Encode c hrp data = .ok (if ToLower c hrp = hrp then ToLower c s else s) :=
  ⟨fun _ _ _ => decodeEncoded,fun _ _ _ => encodeDecoded⟩

theorem encodedText : Decode LetterCase.ascii (Bytes.text "A12UEL5L") = .ok (Bytes.text "A",[]) ∧
    Encode LetterCase.ascii (Bytes.text "A") [] = .ok (Bytes.text "A12UEL5L") :=
  ⟨(encodeDecode LetterCase.ascii).1 _ _ _ (by decide),
    (encodeDecode LetterCase.ascii).2 (Bytes.text "A12UEL5L") _ _ (by decide) (by decide)⟩

/-! Admin keys, as they stand in the keyring. -/

def adminHRP : Bytes := Bytes.text "ADMIN-SSH-KEY-"

def adminkey.MarshalBinary (c : Letters) (k : Bytes) : Except Failure Bytes := Encode c adminHRP k

inductive KeyFailure
  | decode (e : Failure)
  | invalid
  deriving DecidableEq

def adminkey.UnmarshalBinary (c : Letters) (dt : Bytes) : Except KeyFailure Bytes :=
  match Decode c dt with
  | .error e => .error (.decode e)
  | .ok read => if read.1 ≠ adminHRP then .error .invalid else .ok read.2

theorem keyStored (c : Letters) (k : Bytes) :
    ∃ dt, adminkey.MarshalBinary c k = .ok dt ∧ adminkey.UnmarshalBinary c dt = .ok k := by
  obtain ⟨values,made,-⟩ := padded wide (bytesFit k)
  have cased : oneCase c adminHRP := .inr (by rw [upperPlain c (by decide)]; decide)
  have encoded := encodeOk.mpr ⟨values,made,by decide,by decide,cased,rfl⟩
  refine ⟨_,encoded,?_⟩
  rw [adminkey.UnmarshalBinary,decodeEncoded encoded]
  exact if_neg (by simp)

/- A key has one text in ASCII. -/
theorem keyText (c : Letters) {dt k : Bytes} (plain : Ascii dt)
    (read : adminkey.UnmarshalBinary c dt = .ok k) : adminkey.MarshalBinary c k = .ok dt := by
  rw [adminkey.UnmarshalBinary] at read
  cases decoded : Decode c dt with
  | error e =>
    rw [decoded] at read
    contradiction
  | ok r =>
    rw [decoded] at read
    dsimp only at read
    split_ifs at read with other
    obtain rfl := Except.ok.inj read
    rw [ne_eq,not_not] at other
    have encoded := encodeDecoded plain decoded
    rw [other] at encoded
    have upper : ToLower c adminHRP ≠ adminHRP := by
      rw [lowerPlain c (by decide)]
      decide
    rwa [if_neg upper] at encoded

/-! Errors that are found. -/

theorem partsOnce {h h' t t' : Bytes} (none : one ∉ t) (none' : one ∉ t')
    (same : h ++ one::t = h' ++ one::t') :
    h = h' ∧ t = t' := by
  have last := lastAfter h none
  rw [same,lastAfter h' none'] at last
  obtain ⟨front,back⟩ := List.append_inj same (Option.some.inj last).symm
  exact ⟨front,(List.cons.inj back).2⟩

/- The symbols of a text in three pieces. -/
theorem piecesRead {a x b : Bytes} {w : List Nat} (same : (a ++ (x ++ b)).map lowerByte = w.map symbol)
    (fit : Fit 5 w) : ∃ u v z, w = u ++ (v ++ z) ∧ Fit 5 u ∧ Fit 5 v ∧ Fit 5 z ∧
      a.map lowerByte = u.map symbol ∧ x.map lowerByte = v.map symbol ∧ b.map lowerByte = z.map symbol := by
  rw [List.map_append,List.map_append] at same
  obtain ⟨u,rest,rfl,front,rest'⟩ := List.append_eq_map_iff.mp same
  obtain ⟨v,z,rfl,middle,back⟩ := List.append_eq_map_iff.mp rest'.symm
  obtain ⟨fitU,fit⟩ := fitAppend.mp fit
  obtain ⟨fitV,fitZ⟩ := fitAppend.mp fit
  exact ⟨u,v,z,rfl,fitU,fitV,fitZ,front.symm,middle.symm,back.symm⟩

/- A text that differs from one that is accepted in no more than six characters in a row behind the
separator, and not only in their case, is refused. -/
theorem windowDetected (c : Letters) {a x y b hrp data : Bytes} (plain : Ascii (a ++ (x ++ b)))
    (plain' : Ascii y)
    (size : x.length = y.length) (short : x.length ≤ 6)
    (read : Decode c (a ++ (x ++ b)) = .ok (hrp,data)) (behind : hrp.length < a.length)
    (absent : one ∉ y) (changed : ToLower c (a ++ (x ++ b)) ≠ ToLower c (a ++ (y ++ b))) :
    ∃ e, e ≠ .panic ∧ Decode c (a ++ (y ++ b)) = .error e := by
  have ascii : Ascii (a ++ (y ++ b)) := asciiAppend.mpr ⟨(asciiAppend.mp plain).1,
    asciiAppend.mpr ⟨plain',(asciiAppend.mp (asciiAppend.mp plain).2).2⟩⟩
  cases read' : Decode c (a ++ (y ++ b)) with
  | error e => exact ⟨e,fun same => decodeCalm c ascii (same ▸ read'),rfl⟩
  | ok r =>
    obtain ⟨tail,w,same,laid,accepted,-⟩ := laidDecoded plain read
    obtain ⟨tail',w',same',laid',accepted',-⟩ := laidDecoded ascii read'
    obtain ⟨a',rfl,rfl⟩ : ∃ a', a = hrp ++ one::a' ∧ tail = a' ++ (x ++ b) := by
      rw [List.append_eq_append_iff] at same
      rcases same with ⟨l,rfl,-⟩ | ⟨l,rfl,back⟩
      · rw [List.length_append] at behind
        omega
      · cases l with
        | nil =>
          rw [List.append_nil] at behind
          omega
        | cons d l =>
          obtain ⟨rfl,rest⟩ := List.cons.inj back
          exact ⟨l,rfl,rest⟩
    have outside := oneOutside laid.fit laid.same
    rw [List.mem_append,List.mem_append,not_or,not_or] at outside
    have parts : hrp ++ one::(a' ++ (y ++ b)) = r.1 ++ one::tail' := by
      rw [← same',List.append_assoc,List.cons_append]
    obtain ⟨front,rfl⟩ := partsOnce (by
      rw [List.mem_append,List.mem_append,not_or,not_or]
      exact ⟨outside.1,absent,outside.2.2⟩) (oneOutside laid'.fit laid'.same) parts
    obtain ⟨u,v,z,rfl,fitU,fitV,fitZ,readU,readV,readZ⟩ := piecesRead laid.same laid.fit
    obtain ⟨u',v',z',rfl,fitU',fitV',fitZ',readU',readV',readZ'⟩ := piecesRead laid'.same laid'.fit
    obtain rfl := symbolsSame fitU fitU' (readU.symm.trans readU')
    obtain rfl := symbolsSame fitZ fitZ' (readZ.symm.trans readZ')
    have sizes := congrArg List.length readV
    have sizes' := congrArg List.length readV'
    rw [List.length_map,List.length_map] at sizes sizes'
    rw [← front] at accepted'
    rw [verifyChecksum,decide_eq_true_iff,← List.append_assoc] at accepted accepted'
    obtain rfl := windowOnce fitV fitV' (by omega) (by omega) (accepted.trans accepted'.symm)
    refine absurd ?_ changed
    rw [lowerPlain c plain,lowerPlain c ascii]
    simp only [List.map_append,readV,readV']

theorem windowRefused : ∃ e, e ≠ .panic ∧
    Decode LetterCase.ascii (Bytes.text "A12" ++ (Bytes.text "XYL" ++ Bytes.text "5L")) = .error e := by
  have read : Decode LetterCase.ascii (Bytes.text "A12" ++ (Bytes.text "UEL" ++ Bytes.text "5L")) =
    .ok (Bytes.text "A",[]) := by decide
  exact windowDetected LetterCase.ascii (by decide) (by decide) (by decide) (by decide) read (by decide)
    (by decide) (by decide)

end Kraken.Bech32
