import Mathlib.Tactic
import Kraken.Lib.Bytes
import Kraken.Lib.Numeral
import Kraken.Ulid

/-! Identifiers as numbers of 128 bits: the order of their texts, and the prefixes under which
they are kept in tables. -/
namespace Kraken.Ulid
open Numeral (numeral)

def bytes (id : ULID) : Bytes := List.ofFn id

/- What `bytes.Compare` answers. -/
def Compare (id other : ULID) : Int :=
  if bytes id < bytes other then -1 else if bytes id = bytes other then 0 else 1

def Entropy (id : ULID) : Bytes := (bytes id).drop 6

def octet (id : ULID) (i : Nat) : Nat := ((bytes id).getD i 0).toNat

/- No sum of these leaves the positive half of `int64`. -/
def Prefix (id : ULID) : Int :=
  (octet id 0 <<< 55 + octet id 1 <<< 47 + octet id 2 <<< 39 + octet id 3 <<< 31 +
    octet id 4 <<< 23 + octet id 5 <<< 15 + octet id 6 <<< 7 + octet id 7 >>> 1 : Nat)

def MarshalPrefix (pfx : Int) : Bytes :=
  [60,55,50,45,40,35,30,25,20,15,10,5].map fun k => encode (UInt8.ofInt (pfx >>> (k : Nat)) &&& 31)

/-! The number of an identifier. -/

def number (l : Bytes) : Nat := numeral 256 (l.map UInt8.toNat)

def value (id : ULID) : Nat := number (bytes id)

theorem bytesFit (l : Bytes) : ∀ v ∈ l.map UInt8.toNat, v < 256 := by
  intro v inside
  obtain ⟨b,-,rfl⟩ := List.mem_map.mp inside
  exact b.toNat_lt

theorem numberBelow (l : Bytes) : number l < 256^l.length := by
  have below := Numeral.numeralBelow (by decide) (bytesFit l)
  rwa [List.length_map] at below

theorem numberAppend (l m : Bytes) : number (l ++ m) = number l * 256^m.length + number m := by
  rw [number,List.map_append,Numeral.numeralAppend,List.length_map]
  rfl

theorem numberLess {l m : Bytes} (size : l.length = m.length) : l < m ↔ number l < number m := by
  rw [number,number,← Numeral.numeralLess (by decide) (bytesFit l) (bytesFit m) (by simp [size])]
  exact (Numeral.mapLess (fun _ _ _ _ => UInt8.lt_iff_toNat_lt.symm) (fun _ _ _ _ => UInt8.toNat_inj)).symm

theorem numberOnce {l m : Bytes} (size : l.length = m.length) (same : number l = number m) : l = m := by
  have maps := Numeral.numeralOnce (by decide) (bytesFit l) (bytesFit m) (by simp [size]) same
  exact List.map_injective_iff.mpr (fun _ _ => UInt8.toNat_inj.mp) maps

@[simp] theorem bytesLength (id : ULID) : (bytes id).length = 16 := List.length_ofFn

theorem valueOnce {id other : ULID} (same : value id = value other) : id = other :=
  List.ofFn_injective (numberOnce (by simp) same)

/-! The digits of a text. -/

theorem rightPart (x : UInt8) {m k : UInt8} (w : Nat) (mask : m.toNat = (2^w-1) <<< k.toNat)
    (small : k.toNat < 8) : ((x &&& m) >>> k).toNat = x.toNat / 2^k.toNat % 2^w := by
  rw [UInt8.toNat_shiftRight,UInt8.toNat_and,mask,Nat.mod_eq_of_lt small,Nat.shiftRight_and_distrib,
    Nat.shiftLeft_shiftRight,Nat.and_two_pow_sub_one_eq_mod,Nat.shiftRight_eq_div_pow]

theorem leftPart (x : UInt8) {m k : UInt8} (w : Nat) (mask : m.toNat = 2^w-1)
    (fits : w + k.toNat = 5) : ((x &&& m) <<< k).toNat = (x.toNat % 2^w) <<< k.toNat := by
  rw [UInt8.toNat_shiftLeft,UInt8.toNat_and,mask,Nat.mod_eq_of_lt (by omega : k.toNat < 8),
    Nat.and_two_pow_sub_one_eq_mod]
  refine Nat.mod_eq_of_lt ?_
  have low : x.toNat % 2^w < 2^w := Nat.mod_lt _ (Nat.two_pow_pos w)
  rw [Nat.shiftLeft_eq]
  calc x.toNat % 2^w * 2^k.toNat < 2^w * 2^k.toNat := Nat.mul_lt_mul_of_pos_right low (Nat.two_pow_pos _)
    _ = 2^5 := by rw [← Nat.pow_add,fits]
    _ < 2^8 := by decide

/- The end of one byte in front of the beginning of the next one. -/
theorem joined (x y m k m' k' : UInt8) (w : Nat) (mask : m.toNat = 2^w-1) (fits : w + k.toNat = 5)
    (mask' : m'.toNat = (2^k.toNat-1) <<< k'.toNat) (small : k'.toNat < 8) :
    (((x &&& m) <<< k) ||| ((y &&& m') >>> k')).toNat =
      x.toNat % 2^w * 2^k.toNat + y.toNat / 2^k'.toNat % 2^k.toNat := by
  rw [UInt8.toNat_or,leftPart x w mask fits,rightPart y k.toNat mask' small,
    ← Nat.shiftLeft_add_eq_or_of_lt (Nat.mod_lt _ (Nat.two_pow_pos _)),Nat.shiftLeft_eq]

theorem lastPart (x : UInt8) : (x &&& 31).toNat = x.toNat % 32 := by
  rw [UInt8.toNat_and]
  exact Nat.and_two_pow_sub_one_eq_mod _ 5

theorem groupLength (a b c d e : UInt8) : (group a b c d e).length = 8 := rfl

theorem groupNumber (a b c d e : UInt8) :
    numeral 32 ((group a b c d e).map UInt8.toNat) = number [a,b,c,d,e] := by
  have one : ((a &&& 248) >>> 3).toNat = a.toNat / 8 % 32 := rightPart a 5 rfl (by decide)
  have two : (((a &&& 7) <<< 2) ||| ((b &&& 192) >>> 6)).toNat = a.toNat % 8 * 4 + b.toNat / 64 % 4 :=
    joined a b 7 2 192 6 3 rfl rfl rfl (by decide)
  have three : ((b &&& 62) >>> 1).toNat = b.toNat / 2 % 32 := rightPart b 5 rfl (by decide)
  have four : (((b &&& 1) <<< 4) ||| ((c &&& 240) >>> 4)).toNat = b.toNat % 2 * 16 + c.toNat / 16 % 16 :=
    joined b c 1 4 240 4 1 rfl rfl rfl (by decide)
  have five : (((c &&& 15) <<< 1) ||| ((d &&& 128) >>> 7)).toNat = c.toNat % 16 * 2 + d.toNat / 128 % 2 :=
    joined c d 15 1 128 7 4 rfl rfl rfl (by decide)
  have six : ((d &&& 124) >>> 2).toNat = d.toNat / 4 % 32 := rightPart d 5 rfl (by decide)
  have seven : (((d &&& 3) <<< 3) ||| ((e &&& 224) >>> 5)).toNat = d.toNat % 4 * 8 + e.toNat / 32 % 8 :=
    joined d e 3 3 224 5 2 rfl rfl rfl (by decide)
  have within := a.toNat_lt
  have within2 := b.toNat_lt
  have within3 := c.toNat_lt
  have within4 := d.toNat_lt
  have within5 := e.toNat_lt
  simp only [group,number,List.map_cons,List.map_nil,one,two,three,four,five,six,seven,lastPart,
    Numeral.numeralCons,Numeral.numeralNil,List.length_cons,List.length_nil]
  omega

theorem digitNumber (id : ULID) : numeral 32 ((digits id).map UInt8.toNat) = value id := by
  have lead : numeral 32 ([(id 0 &&& 224) >>> 5,id 0 &&& 31].map UInt8.toNat) = number [id 0] := by
    have high : ((id 0 &&& 224) >>> 5).toNat = (id 0).toNat / 32 % 8 := rightPart (id 0) 3 rfl (by decide)
    have within := (id 0).toNat_lt
    simp only [number,List.map_cons,List.map_nil,high,lastPart,Numeral.numeralCons,Numeral.numeralNil,
      List.length_cons,List.length_nil]
    omega
  have cut : bytes id = [id 0] ++ [id 1,id 2,id 3,id 4,id 5] ++ [id 6,id 7,id 8,id 9,id 10] ++
      [id 11,id 12,id 13,id 14,id 15] := rfl
  rw [value,cut,numberAppend,numberAppend,numberAppend,← groupNumber,← groupNumber,← groupNumber,← lead,
    digits,List.map_append,List.map_append,List.map_append,Numeral.numeralAppend,Numeral.numeralAppend,
    Numeral.numeralAppend]
  simp only [List.length_map,groupLength,List.length_cons,List.length_nil]
  norm_num

theorem digitsFit (id : ULID) : ∀ v ∈ (digits id).map UInt8.toNat, v < 32 := by
  intro v inside
  obtain ⟨x,member,rfl⟩ := List.mem_map.mp inside
  exact UInt8.lt_iff_toNat_lt.mp (digitsBelow id x member)

/- The alphabet is in order. -/
theorem encodeLess : ∀ x < 32, ∀ y < 32, encode x < encode y ↔ x < y := by
  have small : ∀ m n : Fin 32,
      encode (UInt8.ofNat m.val) < encode (UInt8.ofNat n.val) ↔ m.val < n.val := by decide
  intro x less y less'
  have here := small ⟨x.toNat,UInt8.lt_iff_toNat_lt.mp less⟩ ⟨y.toNat,UInt8.lt_iff_toNat_lt.mp less'⟩
  simpa only [UInt8.ofNat_toNat,← UInt8.lt_iff_toNat_lt] using here

theorem encodeOnce : ∀ x < 32, ∀ y < 32, encode x = encode y ↔ x = y := fun x less y less' =>
  ⟨fun same => by rw [← decEncode x less,same,decEncode y less'],congrArg encode⟩

/-- Texts are ordered as the identifiers. -/
theorem stringLess (id other : ULID) : String id < String other ↔ value id < value other := by
  rw [String,String,Numeral.mapLess
    (fun x inside y inside' => encodeLess x (digitsBelow id x inside) y (digitsBelow other y inside'))
    (fun x inside y inside' => encodeOnce x (digitsBelow id x inside) y (digitsBelow other y inside')),
    ← digitNumber,← digitNumber,← Numeral.numeralLess (by decide) (digitsFit id) (digitsFit other) rfl]
  exact (Numeral.mapLess (fun _ _ _ _ => UInt8.lt_iff_toNat_lt.symm) (fun _ _ _ _ => UInt8.toNat_inj)).symm

theorem compareLess (id other : ULID) : Compare id other = -1 ↔ value id < value other := by
  rw [value,value,← numberLess (by simp),Compare]
  split_ifs <;> simp_all

/-! Prefixes. -/

theorem prefixValue (id : ULID) : Prefix id = (value id / 2^65 : Nat) := by
  have cut : bytes id = [id 0,id 1,id 2,id 3,id 4,id 5,id 6,id 7] ++
      [id 8,id 9,id 10,id 11,id 12,id 13,id 14,id 15] := rfl
  have below := numberBelow [id 8,id 9,id 10,id 11,id 12,id 13,id 14,id 15]
  rw [value,cut,numberAppend]
  generalize number [id 8,id 9,id 10,id 11,id 12,id 13,id 14,id 15] = rest at below ⊢
  simp only [List.length_cons,List.length_nil] at below ⊢
  have octets : [octet id 0,octet id 1,octet id 2,octet id 3,octet id 4,octet id 5,octet id 6,octet id 7] =
      [(id 0).toNat,(id 1).toNat,(id 2).toNat,(id 3).toNat,(id 4).toNat,(id 5).toNat,(id 6).toNat,
        (id 7).toNat] := rfl
  simp only [List.cons.injEq] at octets
  simp only [octets,Prefix,number,List.map_cons,List.map_nil,Numeral.numeralCons,Numeral.numeralNil,
    List.length_cons,List.length_nil,Nat.shiftLeft_eq,Nat.shiftRight_eq_div_pow]
  omega

theorem prefixRange (id : ULID) : 0 ≤ Prefix id ∧ Prefix id < 2^63 := by
  have below := numberBelow (bytes id)
  rw [bytesLength] at below
  rw [prefixValue,value]
  omega

theorem symbolNumber (n k : Nat) : UInt8.ofInt ((n : Int) >>> k) &&& 31 = UInt8.ofNat (n / 2^k % 32) := by
  have shifted : (n : Int) >>> k = (n / 2^k : Nat) := by rw [← Nat.shiftRight_eq_div_pow]; rfl
  rw [shifted,← UInt8.toNat_inj,lastPart,UInt8.ofInt,UInt8.toNat_ofNat',UInt8.toNat_ofNat']
  omega

def symbol (v : Nat) : UInt8 := encode (UInt8.ofNat v)

theorem symbolOnce {v : Nat} (low : v < 32) : (dec (symbol v)).toNat = v := by
  have small : (UInt8.ofNat v).toNat = v := UInt8.toNat_ofNat_of_lt' (Nat.lt_trans low (by decide))
  rw [symbol,decEncode _ (UInt8.lt_iff_toNat_lt.mpr (small.symm ▸ low)),small]

theorem marshalDigits (n : Nat) : MarshalPrefix n = (Numeral.digits 32 12 (n / 2^5)).map symbol := by
  simp only [MarshalPrefix,symbolNumber,Numeral.digits,List.map_cons,List.map_nil,Nat.div_div_eq_div_mul,
    symbol]
  norm_num

theorem takeDigits (id : ULID) : (String id).take 12 =
    (Numeral.digits 32 12 (value id / 2^70)).map symbol := by
  have fit := fun v inside => digitsFit id v (List.mem_of_mem_take (i := 12) inside)
  have front := Numeral.digitsNumeral (by decide) fit
  have places : ((digits id).map UInt8.toNat).length - 12 = 14 := rfl
  have length : (((digits id).map UInt8.toNat).take 12).length = 12 := rfl
  rw [Numeral.numeralTake (by decide) (digitsFit id),digitNumber,length,places] at front
  rw [show 2^70 = 32^14 by norm_num,front,← List.map_take,List.map_map,String,← List.map_take]
  exact List.map_congr_left fun x _ => congrArg encode UInt8.ofNat_toNat.symm

/- The text of a prefix has twelve of its thirteen digits. -/
theorem marshalText (id : ULID) : MarshalPrefix (Prefix id) = (String id).take 12 := by
  rw [prefixValue,marshalDigits,takeDigits,Nat.div_div_eq_div_mul]
  norm_num

theorem digitsOnce {m n : Nat} (less : m < 32^12) (less' : n < 32^12) :
    (Numeral.digits 32 12 m).map symbol = (Numeral.digits 32 12 n).map symbol ↔ m = n := by
  refine ⟨fun same => ?_,fun same => by rw [same]⟩
  have read (k : Nat) : ((Numeral.digits 32 12 k).map symbol).map (fun b => (dec b).toNat) =
      Numeral.digits 32 12 k := by
    have each : ∀ v ∈ Numeral.digits 32 12 k, (dec (symbol v)).toNat = v :=
      fun v inside => symbolOnce (Numeral.digitsFit (by decide) 12 k v inside)
    rw [List.map_map]
    exact (List.map_congr_left each).trans (List.map_id' _)
  have digits : Numeral.digits 32 12 m = Numeral.digits 32 12 n := by rw [← read m,same,read n]
  have numbers := congrArg (numeral 32) digits
  rwa [Numeral.numeralDigits,Numeral.numeralDigits,Nat.mod_eq_of_lt less,Nat.mod_eq_of_lt less'] at numbers

/-- The text of a prefix leads to the identifiers that agree on time and on ten bits of entropy. -/
theorem prefixFinds (id other : ULID) :
    MarshalPrefix (Prefix id) <+: String other ↔ value id / 2^70 = value other / 2^70 := by
  have below (x : ULID) : value x / 2^70 < 32^12 := by
    have whole := numberBelow (bytes x)
    rw [bytesLength] at whole
    rw [value]
    omega
  have length : ((String id).take 12).length = 12 := rfl
  rw [marshalText,List.prefix_iff_eq_take,length,takeDigits,takeDigits]
  exact digitsOnce (below id) (below other)

end Kraken.Ulid
