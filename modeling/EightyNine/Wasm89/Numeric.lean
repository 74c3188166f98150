/-!
# Integer functions

The functions of the evaluator for the integer instructions.  A `w89_u32` is a
`BitVec 32`, a `w89_u64` and a `w89_i64` are a `BitVec 64`, and a function that may fail
gives no value then.  The functions of the two widths that differ in constants only are
one definition at both of them.
-/

namespace Wasm89

/-! ## Helpers -/

/-- `w89_sx32`. -/
def sx32 (a : BitVec 32) : BitVec 64 :=
  let u := a.setWidth 64
  let v := u &&& 0x80000000#64
  let v := v <<< 1
  u - v

/-- `w89_sx64`. -/
def sx64 (a : BitVec 64) : BitVec 64 :=
  let hi := a &&& 0x8000000000000000#64
  if hi = 0 then a
  else
    let d := a - hi
    d + hi

/-- A test of `w89_clz64`: the `k` high bits are zero. -/
def clzStep (k : Nat) (p : BitVec 32 × BitVec 64) : BitVec 32 × BitVec 64 :=
  if p.2 >>> (64 - k) = 0 then (p.1 + BitVec.ofNat 32 k, p.2 <<< k) else p

/-- `w89_clz64`. -/
def clz64 (x : BitVec 64) : BitVec 32 :=
  let p := clzStep 2 (clzStep 4 (clzStep 8 (clzStep 16 (clzStep 32 (0, x)))))
  if p.2 >>> 63 = 0 then p.1 + 1 else p.1

/-- A test of `w89_ctz64`: the `k` low bits are zero. -/
def ctzStep (k : Nat) (mask : BitVec 64) (p : BitVec 32 × BitVec 64) : BitVec 32 × BitVec 64 :=
  if p.2 &&& mask = 0 then (p.1 + BitVec.ofNat 32 k, p.2 >>> k) else p

/-- `w89_ctz64`. -/
def ctz64 (x : BitVec 64) : BitVec 32 :=
  let p := ctzStep 2 0x03 (ctzStep 4 0x0F (ctzStep 8 0xFF (ctzStep 16 0xFFFF
    (ctzStep 32 0xFFFFFFFF (0, x)))))
  if p.2 &&& 0x01 = 0 then p.1 + 1 else p.1

/-- `w89_popcnt64`. -/
def popcnt64 (x : BitVec 64) : BitVec 32 :=
  let x := x - ((x >>> 1) &&& 0x5555555555555555#64)
  let x := (x &&& 0x3333333333333333#64) + ((x >>> 2) &&& 0x3333333333333333#64)
  let x := (x + (x >>> 4)) &&& 0x0F0F0F0F0F0F0F0F#64
  let v := x * 0x0101010101010101#64
  let v := v >>> 56
  v.setWidth 32

/-- A comparison as a `w89_u32`. -/
def truth (c : Bool) : BitVec 32 := if c then 1 else 0

/-! ## Both widths -/

section

variable {w : Nat}

/-- `w89_i32_div_u`, `w89_i64_div_u`. -/
def divU (a b : BitVec w) : Option (BitVec w) := if b = 0 then none else some (a / b)

/-- `w89_i32_div_s`, `w89_i64_div_s`, with the sign extension and the constants. -/
def divS (sx : BitVec w → BitVec 64) (min neg1 a b : BitVec w) : Option (BitVec w) :=
  if b = 0 then none
  else if a = min ∧ b = neg1 then none
  else
    let r := (sx a).sdiv (sx b)
    some (r.setWidth w)

/-- `w89_i32_rem_u`, `w89_i64_rem_u`. -/
def remU (a b : BitVec w) : Option (BitVec w) := if b = 0 then none else some (a % b)

/-- `w89_i32_rem_s`, `w89_i64_rem_s`. -/
def remS (sx : BitVec w → BitVec 64) (min neg1 a b : BitVec w) : Option (BitVec w) :=
  if b = 0 then none
  else if a = min ∧ b = neg1 then some 0
  else
    let r := (sx a).srem (sx b)
    some (r.setWidth w)

/-- `w89_i32_shl`, `w89_i64_shl`, with the mask of the count. -/
def shl (mask a b : BitVec w) : BitVec w := a <<< (b &&& mask)

/-- `w89_i32_shr_u`, `w89_i64_shr_u`. -/
def shrU (mask a b : BitVec w) : BitVec w := a >>> (b &&& mask)

/-- `w89_i32_shr_s`, `w89_i64_shr_s`. -/
def shrS (mask a b : BitVec w) : BitVec w :=
  let k := b &&& mask
  if k = 0 then a
  else (a >>> k) ||| ((0 - ((a >>> (w - 1)) &&& 1)) <<< (BitVec.ofNat w w - k))

/-- `w89_i32_rotl`, `w89_i64_rotl`. -/
def rotl (mask a b : BitVec w) : BitVec w :=
  let k := b &&& mask
  if k = 0 then a else (a <<< k) ||| (a >>> (BitVec.ofNat w w - k))

/-- `w89_i32_rotr`, `w89_i64_rotr`. -/
def rotr (mask a b : BitVec w) : BitVec w :=
  let k := b &&& mask
  if k = 0 then a else (a >>> k) ||| (a <<< (BitVec.ofNat w w - k))

/-- `w89_i32_lt_s`, `w89_i64_lt_s`, with the sign bit. -/
def ltS (sign a b : BitVec w) : BitVec 32 := truth ((a ^^^ sign) < (b ^^^ sign))

/-- `w89_i32_gt_s`, `w89_i64_gt_s`. -/
def gtS (sign a b : BitVec w) : BitVec 32 := truth ((a ^^^ sign) > (b ^^^ sign))

/-- `w89_i32_le_s`, `w89_i64_le_s`. -/
def leS (sign a b : BitVec w) : BitVec 32 := truth ((a ^^^ sign) ≤ (b ^^^ sign))

/-- `w89_i32_ge_s`, `w89_i64_ge_s`. -/
def geS (sign a b : BitVec w) : BitVec 32 := truth ((a ^^^ sign) ≥ (b ^^^ sign))

/-- The functions that extend the sign of the bits of `mask`, with the bits above. -/
def extendS (mask sign high a : BitVec w) : BitVec w :=
  let a := a &&& mask
  if a &&& sign ≠ 0 then a ||| high else a

end

/-! ## 32 bits -/

def i32Add (a b : BitVec 32) : BitVec 32 := a + b
def i32Sub (a b : BitVec 32) : BitVec 32 := a - b
def i32Mul (a b : BitVec 32) : BitVec 32 := a * b
def i32DivU (a b : BitVec 32) : Option (BitVec 32) := divU a b
def i32DivS (a b : BitVec 32) : Option (BitVec 32) := divS sx32 0x80000000 0xFFFFFFFF a b
def i32RemU (a b : BitVec 32) : Option (BitVec 32) := remU a b
def i32RemS (a b : BitVec 32) : Option (BitVec 32) := remS sx32 0x80000000 0xFFFFFFFF a b
def i32And (a b : BitVec 32) : BitVec 32 := a &&& b
def i32Or (a b : BitVec 32) : BitVec 32 := a ||| b
def i32Xor (a b : BitVec 32) : BitVec 32 := a ^^^ b
def i32Shl (a b : BitVec 32) : BitVec 32 := shl 31 a b
def i32ShrU (a b : BitVec 32) : BitVec 32 := shrU 31 a b
def i32ShrS (a b : BitVec 32) : BitVec 32 := shrS 31 a b
def i32Rotl (a b : BitVec 32) : BitVec 32 := rotl 31 a b
def i32Rotr (a b : BitVec 32) : BitVec 32 := rotr 31 a b

/-- `w89_i32_clz`. -/
def i32Clz (a : BitVec 32) : BitVec 32 :=
  if a = 0 then 32
  else
    let n := clz64 (a.setWidth 64)
    n - 32

/-- `w89_i32_ctz`. -/
def i32Ctz (a : BitVec 32) : BitVec 32 := if a = 0 then 32 else ctz64 (a.setWidth 64)

def i32Popcnt (a : BitVec 32) : BitVec 32 := popcnt64 (a.setWidth 64)

def i32Eqz (a : BitVec 32) : BitVec 32 := truth (a == 0)
def i32Eq (a b : BitVec 32) : BitVec 32 := truth (a == b)
def i32Ne (a b : BitVec 32) : BitVec 32 := truth (a != b)
def i32LtU (a b : BitVec 32) : BitVec 32 := truth (a < b)
def i32LtS (a b : BitVec 32) : BitVec 32 := ltS 0x80000000 a b
def i32GtU (a b : BitVec 32) : BitVec 32 := truth (a > b)
def i32GtS (a b : BitVec 32) : BitVec 32 := gtS 0x80000000 a b
def i32LeU (a b : BitVec 32) : BitVec 32 := truth (a ≤ b)
def i32LeS (a b : BitVec 32) : BitVec 32 := leS 0x80000000 a b
def i32GeU (a b : BitVec 32) : BitVec 32 := truth (a ≥ b)
def i32GeS (a b : BitVec 32) : BitVec 32 := geS 0x80000000 a b

def i32Extend8S (a : BitVec 32) : BitVec 32 := extendS 0xFF 0x80 0xFFFFFF00 a
def i32Extend16S (a : BitVec 32) : BitVec 32 := extendS 0xFFFF 0x8000 0xFFFF0000 a

/-! ## 64 bits -/

def i64Add (a b : BitVec 64) : BitVec 64 := a + b
def i64Sub (a b : BitVec 64) : BitVec 64 := a - b
def i64Mul (a b : BitVec 64) : BitVec 64 := a * b
def i64DivU (a b : BitVec 64) : Option (BitVec 64) := divU a b
def i64DivS (a b : BitVec 64) : Option (BitVec 64) :=
  divS sx64 0x8000000000000000 0xFFFFFFFFFFFFFFFF a b
def i64RemU (a b : BitVec 64) : Option (BitVec 64) := remU a b
def i64RemS (a b : BitVec 64) : Option (BitVec 64) :=
  remS sx64 0x8000000000000000 0xFFFFFFFFFFFFFFFF a b
def i64And (a b : BitVec 64) : BitVec 64 := a &&& b
def i64Or (a b : BitVec 64) : BitVec 64 := a ||| b
def i64Xor (a b : BitVec 64) : BitVec 64 := a ^^^ b
def i64Shl (a b : BitVec 64) : BitVec 64 := shl 63 a b
def i64ShrU (a b : BitVec 64) : BitVec 64 := shrU 63 a b
def i64ShrS (a b : BitVec 64) : BitVec 64 := shrS 63 a b
def i64Rotl (a b : BitVec 64) : BitVec 64 := rotl 63 a b
def i64Rotr (a b : BitVec 64) : BitVec 64 := rotr 63 a b

/-- `w89_i64_clz`. -/
def i64Clz (a : BitVec 64) : BitVec 32 := if a = 0 then 64 else clz64 a

/-- `w89_i64_ctz`. -/
def i64Ctz (a : BitVec 64) : BitVec 32 := if a = 0 then 64 else ctz64 a

def i64Popcnt (a : BitVec 64) : BitVec 32 := popcnt64 a

def i64Eqz (a : BitVec 64) : BitVec 32 := truth (a == 0)
def i64Eq (a b : BitVec 64) : BitVec 32 := truth (a == b)
def i64Ne (a b : BitVec 64) : BitVec 32 := truth (a != b)
def i64LtU (a b : BitVec 64) : BitVec 32 := truth (a < b)
def i64LtS (a b : BitVec 64) : BitVec 32 := ltS 0x8000000000000000 a b
def i64GtU (a b : BitVec 64) : BitVec 32 := truth (a > b)
def i64GtS (a b : BitVec 64) : BitVec 32 := gtS 0x8000000000000000 a b
def i64LeU (a b : BitVec 64) : BitVec 32 := truth (a ≤ b)
def i64LeS (a b : BitVec 64) : BitVec 32 := leS 0x8000000000000000 a b
def i64GeU (a b : BitVec 64) : BitVec 32 := truth (a ≥ b)
def i64GeS (a b : BitVec 64) : BitVec 32 := geS 0x8000000000000000 a b

def i64Extend8S (a : BitVec 64) : BitVec 64 := extendS 0xFF 0x80 0xFFFFFFFFFFFFFF00 a
def i64Extend16S (a : BitVec 64) : BitVec 64 := extendS 0xFFFF 0x8000 0xFFFFFFFFFFFF0000 a
def i64Extend32S (a : BitVec 64) : BitVec 64 :=
  extendS 0xFFFFFFFF 0x80000000 0xFFFFFFFF00000000 a

/-! ## Conversions -/

/-- `w89_i32_wrap_i64`. -/
def i32WrapI64 (a : BitVec 64) : BitVec 32 := a.setWidth 32

/-- `w89_i64_extend_i32_s`. -/
def i64ExtendI32S (a : BitVec 32) : BitVec 64 :=
  if a &&& 0x80000000 ≠ 0 then
    let v := a.setWidth 64
    v ||| 0xFFFFFFFF00000000
  else a.setWidth 64

/-- `w89_i64_extend_i32_u`. -/
def i64ExtendI32U (a : BitVec 32) : BitVec 64 := a.setWidth 64

/-! ## The instructions -/

inductive Binop where
  | add | sub | mul | divU | divS | remU | remS | and | or | xor | shl | shrU | shrS | rotl | rotr

inductive Count where
  | clz | ctz | popcnt

inductive Relop where
  | eq | ne | ltU | ltS | gtU | gtS | leU | leS | geU | geS

/-- The function of a binary instruction of 32 bits. -/
def i32Binop (op : Binop) (a b : BitVec 32) : Option (BitVec 32) :=
  match op with
  | .add => some (i32Add a b)
  | .sub => some (i32Sub a b)
  | .mul => some (i32Mul a b)
  | .divU => i32DivU a b
  | .divS => i32DivS a b
  | .remU => i32RemU a b
  | .remS => i32RemS a b
  | .and => some (i32And a b)
  | .or => some (i32Or a b)
  | .xor => some (i32Xor a b)
  | .shl => some (i32Shl a b)
  | .shrU => some (i32ShrU a b)
  | .shrS => some (i32ShrS a b)
  | .rotl => some (i32Rotl a b)
  | .rotr => some (i32Rotr a b)

/-- The function of a binary instruction of 64 bits. -/
def i64Binop (op : Binop) (a b : BitVec 64) : Option (BitVec 64) :=
  match op with
  | .add => some (i64Add a b)
  | .sub => some (i64Sub a b)
  | .mul => some (i64Mul a b)
  | .divU => i64DivU a b
  | .divS => i64DivS a b
  | .remU => i64RemU a b
  | .remS => i64RemS a b
  | .and => some (i64And a b)
  | .or => some (i64Or a b)
  | .xor => some (i64Xor a b)
  | .shl => some (i64Shl a b)
  | .shrU => some (i64ShrU a b)
  | .shrS => some (i64ShrS a b)
  | .rotl => some (i64Rotl a b)
  | .rotr => some (i64Rotr a b)

/-- The function of a count of 32 bits. -/
def i32Count (op : Count) (a : BitVec 32) : BitVec 32 :=
  match op with
  | .clz => i32Clz a
  | .ctz => i32Ctz a
  | .popcnt => i32Popcnt a

/-- The function of a count of 64 bits. -/
def i64Count (op : Count) (a : BitVec 64) : BitVec 32 :=
  match op with
  | .clz => i64Clz a
  | .ctz => i64Ctz a
  | .popcnt => i64Popcnt a

/-- The function of a comparison of 32 bits. -/
def i32Relop (op : Relop) (a b : BitVec 32) : BitVec 32 :=
  match op with
  | .eq => i32Eq a b
  | .ne => i32Ne a b
  | .ltU => i32LtU a b
  | .ltS => i32LtS a b
  | .gtU => i32GtU a b
  | .gtS => i32GtS a b
  | .leU => i32LeU a b
  | .leS => i32LeS a b
  | .geU => i32GeU a b
  | .geS => i32GeS a b

/-- The function of a comparison of 64 bits. -/
def i64Relop (op : Relop) (a b : BitVec 64) : BitVec 32 :=
  match op with
  | .eq => i64Eq a b
  | .ne => i64Ne a b
  | .ltU => i64LtU a b
  | .ltS => i64LtS a b
  | .gtU => i64GtU a b
  | .gtS => i64GtS a b
  | .leU => i64LeU a b
  | .leS => i64LeS a b
  | .geU => i64GeU a b
  | .geS => i64GeS a b

end Wasm89
