import EightyNine.Wasm89.TypeEnv
import Mathlib.Algebra.Group.Nat.Defs

/-!
# The iterative driver

`w89_eval_iter` walks function bodies on an explicit stack of levels, one for each
function and each structured block that is entered, over one stack of values.  The
levels are kept innermost first, so a label is a position in them.  What the driver
hands to other functions is a parameter: a plain instruction works on the world (the
store), on the frame and on the values, and never on the levels.
-/

namespace Wasm89

/-! ## Programs -/

/-- A `w89_value`, as far as the driver looks into it.  Functions and exceptions are
addresses. -/
inductive Value where
  | num (n : Nat)
  | null
  | func (f : Nat)
  | exn (e : Nat)
  | other (n : Nat)

/-- `(w89_u32) v.u.num`.  Only numbers are asked for it. -/
def Value.toU32 : Value → Nat
  | .num n => n % 2 ^ 32
  | _ => 0

/-- `w89_frame`.  A local that is not set has no value. -/
structure Frame where
  inst : Nat
  locals : List (Option Value)

/-- What a plain instruction leaves. -/
inductive PlainResult (σ : Type) where
  | ok (world : σ) (locals : List (Option Value)) (vs : List Value)
  | trap (msg : String)
  | crash (msg : String)

/-- What a host function leaves. -/
inductive HostResult (σ : Type) where
  | ok (world : σ) (res : List Value)
  | trap (msg : Option String)

/-- The kind of a `w89_catch`, 0 to 3. -/
inductive CatchKind where
  | tag
  | tagRef
  | all
  | allRef

/-- `w89_catch`. -/
structure Catch where
  kind : CatchKind
  tagidx : Nat
  label : Nat

/-- `w89_blocktype`. -/
inductive BlockType where
  | typeidx (x : Nat)
  | empty
  | value

/-- `w89_instr`, by what the driver does with it.  The instructions it does not look at are
plain. -/
inductive Instr (σ : Type) where
  | plain (run : σ → Frame → List Value → PlainResult σ)
  | unreachable
  | block (bt : BlockType)
  | loop (bt : BlockType)
  | ifThen (bt : BlockType)
  | elseMark
  | endMark
  | tryTable (bt : BlockType) (catches : List Catch)
  | throw (tagidx : Nat)
  | throwRef
  | br (label : Nat)
  | brIf (label : Nat)
  | brTable (labels : List Nat) (dflt : Nat)
  | brOnNull (label : Nat)
  | brOnNonNull (label : Nat)
  | ret
  | call (tail : Bool) (funcidx : Nat)
  | callIndirect (tail : Bool) (typeidx tableidx : Nat)
  | callRef (tail : Bool)

/-- The code of a `w89_funcinst`. -/
inductive FuncCode (σ : Type) where
  | host (run : σ → List Value → HostResult σ)
  | body (inst : Nat) (locals : List (ValType Nat)) (code : List (Instr σ))
  | undefined

/-- `w89_funcinst`, with the arities that `w89_func_arity` gives. -/
structure FuncInst (σ : Type) where
  nparams : Nat
  nresults : Nat
  code : FuncCode σ

/-- `w89_moduleinst`.  Of a type only the numbers of parameters and results are kept. -/
structure ModuleInst where
  funcs : List Nat
  tags : List Nat
  types : List (Nat × Nat)

/-- The instances a run works with, which it does not change: functions, modules, and tags
with the number of their parameters. -/
structure Program (σ : Type) where
  funcs : List (FuncInst σ)
  insts : List ModuleInst
  tags : List Nat
  /-- The elements of a table of an instance. -/
  table : σ → Nat → Nat → Option (List Value)
  /-- Whether a function has the type a module gives for an indirect call. -/
  matchFt : Nat → Nat → Nat → Bool

/-! ## Levels -/

/-- `w89_lvlkind`. -/
inductive LvlKind where
  | func
  | block
  deriving DecidableEq

/-- `w89_lvl`. -/
structure Lvl (σ : Type) where
  kind : LvlKind
  frame : Option Nat
  src : List (Instr σ)
  pc : Nat
  stop : Nat
  contpos : Nat
  isLoop : Bool
  exitArity : Nat
  base : Nat
  nparams : Nat
  catches : List Catch

/-- `w89_exn`. -/
structure Exn where
  tag : Nat
  args : List Value

/-- `w89_config`, with the store. -/
structure Config (σ : Type) where
  frame : Option Nat
  lvls : List (Lvl σ)
  vs : List Value
  budget : Int
  frames : List Frame
  exns : List Exn
  world : σ

/-- `w89_eval_out`. -/
inductive Outcome where
  | ok (vs : List Value)
  | trap (msg : String)
  | exhausted
  | exception (tag : Nat) (payload : List Value)
  | crash (msg : String)

/-- One turn of the loop. -/
inductive Next (σ : Type) where
  | cont (c : Config σ)
  | stop (out : Outcome)

variable {σ : Type}

/-- `undef_msg`. -/
def undefMsg (cat : String) (idx : Nat) : String := "undefined " ++ cat ++ " " ++ toString idx

/-- `num_msg`. -/
def numMsg (text : String) (i : Nat) : String := text ++ " " ++ toString i

/-- The top values of the stack, `n` of them. -/
def topValues (vs : List Value) (n : Nat) : List Value := vs.drop (vs.length - n)

/-- The stack without its top values. -/
def popValues (vs : List Value) (n : Nat) : List Value := vs.take (vs.length - n)

/-- The levels from the function on to which a level belongs, or from level 0 on:
`iter_func_of`. -/
def iterFuncOf : List (Lvl σ) → List (Lvl σ)
  | [] => []
  | [l] => [l]
  | l :: ls => if l.kind = .func then l :: ls else iterFuncOf ls

/-- The frame of the innermost function: `iter_sync_frame`. -/
def syncedFrame (frame : Option Nat) : List (Lvl σ) → Option Nat
  | [] => frame
  | l :: ls => if l.kind = .func then l.frame else syncedFrame frame ls

/-- `iter_sync_frame`. -/
def iterSyncFrame (c : Config σ) : Config σ := { c with frame := syncedFrame c.frame c.lvls }

/-- The instance of a frame. -/
def instOf (P : Program σ) (c : Config σ) (frame : Option Nat) : Option ModuleInst :=
  match frame with
  | none => none
  | some a =>
    match c.frames[a]? with
    | none => none
    | some fr => P.insts[fr.inst]?

/-- `par->pc = pc2` at the innermost level. -/
def setPc (pc : Nat) : List (Lvl σ) → List (Lvl σ)
  | [] => []
  | l :: ls => { l with pc := pc } :: ls

/-- The innermost level goes on with its next instruction. -/
def advance : List (Lvl σ) → List (Lvl σ)
  | [] => []
  | l :: ls => { l with pc := l.pc + 1 } :: ls

/-- A level is left at its end, and the one around it goes on after it. -/
def leave (c : Config σ) (stop : Nat) (rest : List (Lvl σ)) : Config σ :=
  { c with lvls := setPc (stop + 1) rest }

/-! ## Blocks -/

/-- Whether an instruction opens a block: 0x02, 0x03, 0x04 and 0x1F. -/
def Instr.opens : Instr σ → Bool
  | .block _ | .loop _ | .ifThen _ | .tryTable _ _ => true
  | _ => false

/-- The loop of `w89_block_extent` from the position `j` on, `depth` blocks inside. -/
def extentFrom (j depth : Nat) (elsePos : Option Nat) :
    List (Instr σ) → Option (Nat × Option Nat)
  | [] => none
  | i :: is =>
    if i.opens then extentFrom (j + 1) (depth + 1) elsePos is
    else
      match i with
      | .elseMark => extentFrom (j + 1) depth (if depth = 0 then some j else elsePos) is
      | .endMark => if depth = 0 then some (j, elsePos) else extentFrom (j + 1) (depth - 1) elsePos is
      | _ => extentFrom (j + 1) depth elsePos is

/-- `w89_block_extent`: the end of the block that is opened at a position, and its `else`. -/
def blockExtent (items : List (Instr σ)) (i : Nat) : Option (Nat × Option Nat) :=
  extentFrom (i + 1) 0 none (items.drop (i + 1))

/-- `w89_blocktype_arity`. -/
def blocktypeArity (types : List (Nat × Nat)) : BlockType → Nat × Nat
  | .typeidx x => types.getD x (0, 0)
  | .empty => (0, 0)
  | .value => (0, 1)

/-- The block type, the catches, and whether it is a loop or an `if`. -/
structure Opening where
  bt : BlockType
  catches : List Catch
  isLoop : Bool
  isIf : Bool

/-- `enter_block`. -/
def enterBlock (P : Program σ) (c : Config σ) (tp : Lvl σ) (op : Opening) : Next σ :=
  match blockExtent tp.src tp.pc with
  | none => .stop (.crash "malformed block")
  | some (be, ep) =>
    let arity :=
      match instOf P c c.frame with
      | none => blocktypeArity [] op.bt
      | some mi => blocktypeArity mi.types op.bt
    if op.isIf ∧ c.vs.length < 1 then .stop (.crash "stack underflow")
    else
      let cond := if op.isIf then (c.vs.getLast?.getD .null).toU32 else 1
      let vs := if op.isIf then popValues c.vs 1 else c.vs
      let start := if cond = 0 then (match ep with | some e => e + 1 | none => be) else tp.pc + 1
      if vs.length < arity.1 then .stop (.crash "stack underflow")
      else
        let lv : Lvl σ :=
          { kind := .block, frame := none, src := tp.src, pc := start, stop := be,
            contpos := if op.isLoop then tp.pc + 1 else 0, isLoop := op.isLoop,
            exitArity := arity.2, base := vs.length - arity.1, nparams := arity.1,
            catches := op.catches }
        .cont { c with vs := vs, lvls := lv :: c.lvls }

/-! ## Branches and returns -/

/-- `iter_br`. -/
def iterBr (c : Config σ) (depth : Nat) : Next σ :=
  if c.lvls.length < 1 then .stop (.crash "undefined label")
  else
    match c.lvls.drop depth with
    | [] => .stop (.crash "undefined label")
    | tg :: rest =>
      let take := min tg.exitArity c.vs.length
      if tg.kind = .func then
        .cont { c with
          vs := c.vs.take tg.base ++ topValues c.vs take
          lvls := { tg with pc := tg.src.length } :: rest }
      else if tg.isLoop then
        let vs :=
          if c.vs.length > tg.base + tg.nparams then
            c.vs.take tg.base ++ topValues c.vs tg.nparams
          else c.vs
        .cont { c with vs := vs, lvls := { tg with pc := tg.contpos } :: rest }
      else
        .cont (leave { c with vs := c.vs.take tg.base ++ topValues c.vs take } tg.stop rest)

/-- `fn_splice`: the function of the level returns, and the levels above it are dropped. -/
def fnSplice (c : Config σ) : List (Lvl σ) → Next σ
  | [] => .stop (.ok c.vs)
  | tp :: rest =>
    let avail := c.vs.length - tp.base
    let take := if tp.exitArity = 0 then avail else min avail tp.exitArity
    let vs := c.vs.take tp.base ++ topValues c.vs take
    match rest with
    | [] => .stop (.ok vs)
    | _ :: _ => .cont (iterSyncFrame { c with vs := vs, lvls := advance rest, budget := c.budget + 1 })

/-! ## Calls -/

/-- `w89_default_value`, where a local has one. -/
def defaultLocal : ValType Nat → Option Value
  | .num _ => some (.num 0)
  | .ref rt => if rt.nullable then some .null else none

/-- The locals of a frame, once the arguments and the defaults are written into them. -/
def frameLocals (old : List (Option Value)) (args : List Value) (locals : List (ValType Nat)) :
    List (Option Value) :=
  let fresh := args.map some ++ locals.map defaultLocal
  fresh ++ old.drop fresh.length

/-- `do_call`. -/
def doCall (P : Program σ) (c : Config σ) (f : Nat) : Next σ :=
  match P.funcs[f]? with
  | none => .stop (.crash "undefined frame")
  | some cf =>
    if c.vs.length < cf.nparams then .stop (.crash "stack underflow")
    else
      let args := topValues c.vs cf.nparams
      let vs := popValues c.vs cf.nparams
      match cf.code with
      | .host run =>
        match run c.world args with
        | .trap msg => .stop (.trap (msg.getD "host function trapped"))
        | .ok world res =>
          .cont { c with world := world, vs := vs ++ res, lvls := advance c.lvls }
      | .undefined =>
        if c.budget = 0 then .stop .exhausted else .stop (.crash "undefined frame")
      | .body inst locals code =>
        if c.budget = 0 then .stop .exhausted
        else
          let lv : Lvl σ :=
            { kind := .func, frame := some c.frames.length, src := code, pc := 0,
              stop := code.length, contpos := 0, isLoop := false, exitArity := cf.nresults,
              base := vs.length, nparams := 0, catches := [] }
          .cont { c with
            frames := c.frames ++ [⟨inst, frameLocals [] args locals⟩]
            vs := vs
            lvls := lv :: c.lvls
            frame := some c.frames.length
            budget := c.budget - 1 }

/-- The level of a function that a tail call replaces. -/
def tailLvl (tl : Lvl σ) (frame : Nat) (code : List (Instr σ)) (nresults base : Nat) : Lvl σ :=
  { tl with
    kind := .func, frame := some frame, src := code, pc := 0, stop := code.length,
    exitArity := nresults, base := base }

/-- `do_tail`. -/
def doTail (P : Program σ) (c : Config σ) (f : Nat) : Next σ :=
  match P.funcs[f]? with
  | none => .stop (.crash "undefined frame")
  | some cf =>
    if c.vs.length < cf.nparams then .stop (.crash "stack underflow")
    else
      let args := topValues c.vs cf.nparams
      let vs := popValues c.vs cf.nparams
      match iterFuncOf c.lvls with
      | [] => .stop (.crash "undefined frame")
      | tl :: rest =>
        let returned : List (Lvl σ) := { tl with pc := tl.src.length } :: rest
        match cf.code with
        | .host run =>
          match run c.world args with
          | .trap msg => .stop (.trap (msg.getD "host function trapped"))
          | .ok world res => .cont { c with world := world, vs := vs ++ res, lvls := returned }
        | .undefined => .stop (.crash "undefined frame")
        | .body inst locals code =>
          match rest with
          | [] =>
            -- The frame of level 0 is the caller's, and is used again where it is large enough.
            match tl.frame with
            | none => doCall P { c with lvls := returned } f
            | some a =>
              match c.frames[a]? with
              | none => doCall P { c with lvls := returned } f
              | some fr =>
                if fr.locals.length < cf.nparams + locals.length then
                  doCall P { c with lvls := returned } f
                else
                  .cont { c with
                    frames := c.frames.set a
                      { fr with locals := frameLocals fr.locals args locals }
                    vs := vs
                    lvls := [tailLvl tl a code cf.nresults vs.length]
                    frame := some a }
          | _ :: _ =>
            .cont { c with
              frames := c.frames ++ [⟨inst, frameLocals [] args locals⟩]
              vs := vs
              lvls := tailLvl tl c.frames.length code cf.nresults vs.length :: rest
              frame := some c.frames.length }

/-- `do_call` or `do_tail`. -/
def invoke (P : Program σ) (c : Config σ) (tail : Bool) (f : Nat) : Next σ :=
  if tail then doTail P c f else doCall P c f

/-- `resolve_direct`. -/
def resolveDirect (P : Program σ) (c : Config σ) (tail : Bool) (idx : Nat) : Next σ :=
  match instOf P c c.frame with
  | none => .stop (.crash "undefined frame")
  | some mi =>
    match mi.funcs[idx]? with
    | none => .stop (.crash (undefMsg "function" idx))
    | some f => invoke P c tail f

/-- `resolve_ind`. -/
def resolveInd (P : Program σ) (c : Config σ) (tail : Bool) (typeidx tableidx : Nat) : Next σ :=
  match c.frame.bind fun a => c.frames[a]? with
  | none => .stop (.crash "undefined frame")
  | some fr =>
    match P.table c.world fr.inst tableidx with
    | none => .stop (.crash (undefMsg "table" tableidx))
    | some elems =>
      if c.vs.length < 1 then .stop (.crash "stack underflow")
      else
        let i := (c.vs.getLast?.getD .null).toU32
        match elems[i]? with
        | none => .stop (.trap (numMsg "undefined element" i))
        | some .null => .stop (.trap (numMsg "uninitialized element" i))
        | some (.func f) =>
          if P.matchFt f fr.inst typeidx then invoke P { c with vs := popValues c.vs 1 } tail f
          else .stop (.trap (numMsg "indirect call type mismatch, expected type" i))
        | some _ => .stop (.crash "type mismatch at call_indirect")

/-- `resolve_ref`. -/
def resolveRef (P : Program σ) (c : Config σ) (tail : Bool) : Next σ :=
  match c.vs.getLast? with
  | none => .stop (.crash "stack underflow")
  | some (.num _) => .stop (.trap "null function reference")
  | some .null => .stop (.trap "null function reference")
  | some (.func f) => invoke P { c with vs := popValues c.vs 1 } tail f
  | some _ => .stop (.crash "type mismatch at call_ref")

/-! ## Exceptions -/

/-- Whether a clause takes an exception with the tag, in the instance of its function. -/
def Catch.takes (ct : Catch) (inst : Option ModuleInst) (tag : Nat) : Bool :=
  match ct.kind with
  | .all | .allRef => true
  | .tag | .tagRef =>
    match inst with
    | none => false
    | some mi => mi.tags[ct.tagidx]? == some tag

/-- The instance of the function to which the innermost level belongs. -/
def ownerInst (P : Program σ) (c : Config σ) (lvls : List (Lvl σ)) : Option ModuleInst :=
  match iterFuncOf lvls with
  | [] => none
  | l :: _ => instOf P c l.frame

/-- `throw_scan`: the levels from the `try_table` on that takes the exception, and the clause. -/
def throwScan (P : Program σ) (c : Config σ) (tag : Nat) :
    List (Lvl σ) → Option (List (Lvl σ) × Catch)
  | [] => none
  | tl :: rest =>
    if tl.kind = .block then
      match tl.catches.find? fun ct => ct.takes (ownerInst P c (tl :: rest)) tag with
      | some ct => some (tl :: rest, ct)
      | none => throwScan P c tag rest
    else throwScan P c tag rest

/-- The levels from `ti` on lose their frames, which are freed.  Level 0 keeps its own. -/
def releaseFrames (ti : Nat) : List (Lvl σ) → List (Lvl σ)
  | [] => []
  | l :: ls =>
    if ls.length < ti then l :: ls
    else if l.kind = .func ∧ ls.length ≠ 0 then { l with frame := none } :: releaseFrames ti ls
    else l :: releaseFrames ti ls

/-- The number of frames freed. -/
def releasedFrames (ti : Nat) : List (Lvl σ) → Nat
  | [] => 0
  | l :: ls =>
    if ls.length < ti then 0
    else if l.kind = .func ∧ ls.length ≠ 0 then releasedFrames ti ls + 1
    else releasedFrames ti ls

/-- The index of the level a clause names, from the index of its `try_table`. -/
def catchTarget (ttidx label : Nat) : Nat := if label < ttidx then ttidx - 1 - label else 0

/-- The last part of `throw_hit`: control goes on at the level the clause names. -/
def resumeAt (c : Config σ) : List (Lvl σ) → Next σ
  | [] => .stop (.ok c.vs)
  | tgl :: rest =>
    if tgl.kind = .func then fnSplice c (tgl :: rest)
    else .cont (iterSyncFrame (leave c tgl.stop rest))

/-- `throw_hit`, for the `try_table` at the index `ttidx`. -/
def throwHit (P : Program σ) (c : Config σ) (tag : Nat) (payload : List Value) (ttidx : Nat)
    (ct : Catch) : Next σ :=
  let ti := catchTarget ttidx ct.label
  let lvls := releaseFrames ti c.lvls
  let c := { c with lvls := lvls, budget := c.budget + releasedFrames ti c.lvls }
  let owner := ownerInst P c (lvls.drop (lvls.length - 1 - ttidx))
  let target := lvls.drop (lvls.length - 1 - ti)
  let vs := c.vs.take (target.head?.elim 0 Lvl.base)
  match ct.kind with
  | .tag => resumeAt { c with vs := vs ++ payload } target
  | .tagRef =>
    if owner.isNone then .stop (.crash "no store for exception")
    else
      resumeAt { c with vs := vs ++ payload ++ [.exn c.exns.length], exns := c.exns ++ [⟨tag, payload⟩] }
        target
  | .allRef =>
    if owner.isNone then .stop (.crash "no store for exception")
    else
      resumeAt { c with vs := vs ++ [.exn c.exns.length], exns := c.exns ++ [⟨tag, payload⟩] } target
  | .all => resumeAt { c with vs := vs } target

/-- `throw_scan` and what follows. -/
def throwExn (P : Program σ) (c : Config σ) (tag : Nat) (payload : List Value) : Next σ :=
  match throwScan P c tag c.lvls with
  | none => .stop (.exception tag payload)
  | some (lvls, ct) => throwHit P c tag payload (lvls.length - 1) ct

/-- `do_throw`. -/
def doThrow (P : Program σ) (c : Config σ) (idx : Nat) : Next σ :=
  match instOf P c c.frame with
  | none => .stop (.crash "undefined frame")
  | some mi =>
    match mi.tags[idx]? with
    | none => .stop (.crash (undefMsg "tag" idx))
    | some tag =>
      let pn := P.tags.getD tag 0
      if c.vs.length < pn then .stop (.crash "stack underflow")
      else throwExn P { c with vs := popValues c.vs pn } tag (topValues c.vs pn)

/-- `do_throw_ref`. -/
def doThrowRef (P : Program σ) (c : Config σ) : Next σ :=
  match c.vs.getLast? with
  | none => .stop (.crash "stack underflow")
  | some (.num _) => .stop (.trap "null exception reference")
  | some .null => .stop (.trap "null exception reference")
  | some (.exn e) =>
    match c.exns[e]? with
    | none => .stop (.crash "type mismatch at throw_ref")
    | some te => throwExn P { c with vs := popValues c.vs 1 } te.tag te.args
  | some _ => .stop (.crash "type mismatch at throw_ref")

/-! ## The loop -/

/-- `iter_run_plain` and what follows.  A plain instruction never answers that the stack is
exhausted: calls do not reach it. -/
def runPlain (c : Config σ) (run : σ → Frame → List Value → PlainResult σ) : Next σ :=
  match c.frame with
  | none => .stop (.crash "undefined frame")
  | some a =>
    match c.frames[a]? with
    | none => .stop (.crash "undefined frame")
    | some fr =>
      match run c.world fr c.vs with
      | .ok world locals vs =>
        .cont { c with
          world := world
          frames := c.frames.set a { fr with locals := locals }
          vs := vs
          lvls := advance c.lvls }
      | .trap msg => .stop (.trap msg)
      | .crash msg => .stop (.crash msg)

/-- `do_br_on_null`. -/
def doBrOnNull (c : Config σ) (label : Nat) : Next σ :=
  match c.vs.getLast? with
  | none => .stop (.crash "stack underflow")
  | some .null => iterBr { c with vs := popValues c.vs 1 } label
  | some _ => .cont { c with lvls := advance c.lvls }

/-- `do_br_on_non_null`. -/
def doBrOnNonNull (c : Config σ) (label : Nat) : Next σ :=
  match c.vs.getLast? with
  | none => .stop (.crash "stack underflow")
  | some .null => .cont { c with vs := popValues c.vs 1, lvls := advance c.lvls }
  | some (.num _) => .cont { c with vs := popValues c.vs 1, lvls := advance c.lvls }
  | some _ => iterBr c label

/-- `br_if`. -/
def doBrIf (c : Config σ) (label : Nat) : Next σ :=
  match c.vs.getLast? with
  | none => .stop (.crash "stack underflow")
  | some v =>
    if v.toU32 = 0 then .cont { c with vs := popValues c.vs 1, lvls := advance c.lvls }
    else iterBr { c with vs := popValues c.vs 1 } label

/-- `br_table`. -/
def doBrTable (c : Config σ) (labels : List Nat) (dflt : Nat) : Next σ :=
  let sel := (c.vs.getLast?.getD .null).toU32
  iterBr { c with vs := popValues c.vs 1 } (labels.getD sel dflt)

/-- The instruction at the innermost level. -/
def exec (P : Program σ) (c : Config σ) (tp : Lvl σ) (rest : List (Lvl σ)) : Instr σ → Next σ
  | .elseMark => .cont (leave c tp.stop rest)
  | .endMark => .cont (leave c tp.stop rest)
  | .block bt => enterBlock P c tp ⟨bt, [], false, false⟩
  | .loop bt => enterBlock P c tp ⟨bt, [], true, false⟩
  | .ifThen bt => enterBlock P c tp ⟨bt, [], false, true⟩
  | .tryTable bt catches => enterBlock P c tp ⟨bt, catches, false, false⟩
  | .throw tagidx => doThrow P c tagidx
  | .throwRef => doThrowRef P c
  | .ret => fnSplice c (iterFuncOf c.lvls)
  | .call tail idx => resolveDirect P c tail idx
  | .callIndirect tail typeidx tableidx => resolveInd P c tail typeidx tableidx
  | .callRef tail => resolveRef P c tail
  | .brOnNull label => doBrOnNull c label
  | .brOnNonNull label => doBrOnNonNull c label
  | .br label => iterBr c label
  | .brIf label => doBrIf c label
  | .brTable labels dflt => doBrTable c labels dflt
  | .unreachable => .stop (.trap "unreachable executed")
  | .plain run => runPlain c run

/-- One turn of the loop of `w89_eval_iter`. -/
def step (P : Program σ) (c : Config σ) : Next σ :=
  match c.lvls with
  | [] => .stop (.ok c.vs)
  | tp :: rest =>
    if tp.kind = .func ∧ tp.pc ≥ tp.src.length then fnSplice c (tp :: rest)
    else if tp.kind = .block ∧ tp.pc ≥ tp.stop then .cont (leave c tp.stop rest)
    else
      match tp.src[tp.pc]? with
      | none => .stop (.crash "malformed block")
      | some i => exec P c tp rest i

/-- The configuration with which `iter_invoke_driver` starts, once level 0 is there. -/
def start (f : FuncInst σ) (inst : Nat) (locals : List (ValType Nat)) (code : List (Instr σ))
    (args : List Value) (budget : Int) (world : σ) : Config σ :=
  { frame := some 0
    lvls :=
      [{ kind := .func, frame := some 0, src := code, pc := 0, stop := code.length, contpos := 0,
         isLoop := false, exitArity := f.nresults, base := 0, nparams := 0, catches := [] }]
    vs := []
    budget := budget
    frames := [⟨inst, frameLocals [] args locals⟩]
    exns := []
    world := world }

end Wasm89
