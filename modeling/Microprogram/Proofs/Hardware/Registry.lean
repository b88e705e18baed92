import Std.Data.TreeMap.Lemmas
import Microprogram.Hardware.Declare
import Microprogram.Proofs.Machine.Outcome

/-! Registries that are filled by calls. Whatever the calls declare, in whatever order, and
however many of them are refused, the numbers of a kind count up, every path leads to the one
declaration it belongs to, and a refused call leaves no trace. -/
namespace Microprogram

def ComponentDecl.child (decl : ComponentDecl) (name : String) : String :=
  (if decl.path = "/" then "" else decl.path) ++ "/" ++ name

namespace Registry

namespace Declaration

def kind : Declaration → Kind
  | component _ _ => .component
  | bus _ _ => .bus
  | control _ _ _ _ => .control
  | status _ _ => .status

def owner : Declaration → ComponentId
  | component parent _ => parent
  | bus _ _ => root
  | control owner _ _ _ => owner
  | status owner _ => owner

def name : Declaration → String
  | component _ name => name
  | bus name _ => name
  | control _ name _ _ => name
  | status _ name => name

def bus? : Declaration → Option BusId
  | control _ _ action _ => action.bus?
  | _ => none

end Declaration

section Building

/-- Calls on a registry that is changed in place. A change stays when the call fails after it. -/
abbrev Building := EStateM StructuralError Registry

def ask {α : Type} (question : Registry → Except StructuralError α) : Building α := fun hw =>
  match question hw with
  | .ok a => .ok a hw
  | .error reason => .error reason hw

/-- Books the path of the next declaration of a kind, and returns the path and its number. -/
def reserve (owner : ComponentId) (name : String) (kind : Kind) : Building (String × UInt16) := do
  let path ← ask fun hw => hw.childPath owner name
  let num ← ask fun hw => hw.nextNum kind
  let paths ← ask fun hw => hw.claim path ⟨kind,num⟩
  modify fun hw => { hw with paths }
  return (path,num)

/-- A declaration as changes made one after the other. -/
def call : Declaration → Building UInt16
  | .component parent name => do
    let (path,num) ← reserve parent name .component
    modify fun hw => { hw with components := hw.components.push ⟨name,path,some parent⟩ }
    return num
  | .bus name width => do
    let (path,num) ← reserve root name .bus
    modify fun hw => { hw with buses := hw.buses.push ⟨name,path,width⟩ }
    return num
  | .control owner name action autoClear => do
    if let some bus := action.bus? then
      let _ ← ask fun hw => hw.bus bus
    let (path,num) ← reserve owner name .control
    modify fun hw => { hw with controls := hw.controls.push ⟨name,path,owner,action,autoClear⟩ }
    return num
  | .status owner name => do
    let (path,num) ← reserve owner name .status
    modify fun hw => { hw with statuses := hw.statuses.push ⟨name,path,owner⟩ }
    return num

/-- Makes every call, also after one that failed. Returns the calls that succeeded with their
numbers, and the registry as the last call left it. -/
def callAll : List Declaration → Registry → List (Declaration × UInt16) × Registry
  | [], hw => ([],hw)
  | declaration :: rest, hw =>
    match (call declaration).run hw with
    | .ok num next => ((declaration,num) :: (callAll rest next).1,(callAll rest next).2)
    | .error _ next => callAll rest next

end Building

variable {hw next : Registry} {declaration : Declaration}

/-- What declares the members of a kind again, in their order. The root is not declared. -/
def declarations (hw : Registry) : Kind → List Declaration
  | .component => hw.components.toList.filterMap fun decl => decl.parent.map (.component · decl.name)
  | .control => hw.controls.toList.map fun decl =>
      .control decl.owner decl.name decl.action decl.autoClear
  | .status => hw.statuses.toList.map fun decl => .status decl.owner decl.name
  | .bus => hw.buses.toList.map fun decl => .bus decl.name decl.width

/-- What declarations of all kinds have. -/
structure Naming where
  /-- Absent for the root alone. -/
  owner : Option ComponentId
  name : String
  path : String

def namings (hw : Registry) : Kind → Array Naming
  | .component => hw.components.map fun decl => ⟨decl.parent,decl.name,decl.path⟩
  | .control => hw.controls.map fun decl => ⟨some decl.owner,decl.name,decl.path⟩
  | .status => hw.statuses.map fun decl => ⟨some decl.owner,decl.name,decl.path⟩
  | .bus => hw.buses.map fun decl => ⟨some root,decl.name,decl.path⟩

def naming? (hw : Registry) (target : Target) : Option Naming :=
  (hw.namings target.kind)[target.num.toNat]?

/-- A registry whose numbers fit sixteen bits and whose paths and declarations are in step. -/
structure WellFormed (hw : Registry) : Prop where
  limit (kind : Kind) : hw.count kind ≤ 65536
  /-- A path leads to a declaration exactly if it is its own. -/
  leads (path : String) (target : Target) : hw.lookup path = .ok target ↔
    ∃ naming, hw.naming? target = some naming ∧ naming.path = path
  /-- The root stands alone, and all else stands under a component. A component comes after
  the one above it. -/
  under (target : Target) (naming : Naming) : hw.naming? target = some naming →
    (target = ⟨.component,root.num⟩ ∧ naming = ⟨none,"","/"⟩) ∨
    ∃ owner decl, naming.owner = some owner ∧ hw.component? owner = some decl ∧
      naming.path = decl.child naming.name ∧ (target.kind = .component → owner.num < target.num)
  /-- Lines work on declared buses. -/
  taps (id : ControlId) (decl : ControlDecl) (bus : BusId) : hw.control? id = some decl →
    decl.action.bus? = some bus → (hw.bus? bus).isSome

/-- The conditions under which a declaration is made at a path. -/
structure Admits (hw : Registry) (declaration : Declaration) (path : String) : Prop where
  owned : ∃ decl, hw.component? declaration.owner = some decl ∧ path = decl.child declaration.name
  tapped (bus : BusId) : declaration.bus? = some bus → (hw.bus? bus).isSome
  room : hw.count declaration.kind ≤ 65535
  free : hw.paths[path]? = none

def place (hw : Registry) (path : String) (num : UInt16) (declaration : Declaration) : Registry :=
  let paths := hw.paths.insert path ⟨declaration.kind,num⟩
  match declaration with
  | .component parent name =>
    { hw with paths, components := hw.components.push ⟨name,path,some parent⟩ }
  | .bus name width => { hw with paths, buses := hw.buses.push ⟨name,path,width⟩ }
  | .control owner name action autoClear =>
    { hw with paths, controls := hw.controls.push ⟨name,path,owner,action,autoClear⟩ }
  | .status owner name => { hw with paths, statuses := hw.statuses.push ⟨name,path,owner⟩ }

/-- The bus of a declaration is declared already. -/
def tap (hw : Registry) (declaration : Declaration) : Except StructuralError Unit := do
  if let some bus := declaration.bus? then
    let _ ← hw.bus bus

def book (hw : Registry) (owner : ComponentId) (name : String) (kind : Kind) :
    Except StructuralError (String × UInt16) := do
  let path ← hw.childPath owner name
  let num ← hw.nextNum kind
  let _ ← hw.claim path ⟨kind,num⟩
  return (path,num)

theorem known_ok {kind : Kind} {δ : Type} {id : Ident kind} {found : Option δ} {decl : δ} :
    known id found = .ok decl ↔ found = some decl := by
  cases found <;> simp [known]

theorem childPath_ok {owner : ComponentId} {name path : String} :
    hw.childPath owner name = .ok path ↔
      ∃ decl, hw.component? owner = some decl ∧ path = decl.child name := by
  rw [childPath,except_bind_ok]
  refine exists_congr fun decl => and_congr known_ok ?_
  rw [ComponentDecl.child]
  split <;> simp [pure,Except.pure,eq_comm]

theorem nextNum_ok {kind : Kind} {num : UInt16} : hw.nextNum kind = .ok num ↔
    hw.count kind ≤ 65535 ∧ num = UInt16.ofNat (hw.count kind) := by
  rw [nextNum]
  split
  next room => simp [room,eq_comm]
  next full => simp [full]

theorem claim_ok {path : String} {target : Target} {paths : Std.TreeMap String Target} :
    hw.claim path target = .ok paths ↔
      hw.paths[path]? = none ∧ paths = hw.paths.insert path target := by
  rw [claim,Std.TreeMap.contains_eq_isSome_getElem?]
  cases hw.paths[path]? <;> simp [eq_comm]

theorem tap_ok : hw.tap declaration = .ok () ↔
    ∀ bus, declaration.bus? = some bus → (hw.bus? bus).isSome := by
  rw [tap]
  cases declaration.bus? with
  | none => simp [pure,Except.pure]
  | some bus => simp [except_bind_ok,Registry.bus,known_ok,Option.isSome_iff_exists,pure,Except.pure]

theorem book_ok {owner : ComponentId} {name path : String} {kind : Kind} {num : UInt16} :
    hw.book owner name kind = .ok (path,num) ↔
      (∃ decl, hw.component? owner = some decl ∧ path = decl.child name) ∧
      (hw.count kind ≤ 65535 ∧ num = UInt16.ofNat (hw.count kind)) ∧ hw.paths[path]? = none := by
  simp only [book,except_bind_ok,childPath_ok,nextNum_ok,claim_ok]
  constructor
  · rintro ⟨_,owned,_,booked,_,⟨free,_⟩,⟨⟩⟩
    exact ⟨owned,booked,free⟩
  · intro ⟨owned,booked,free⟩
    exact ⟨path,owned,num,booked,_,⟨free,rfl⟩,rfl⟩

theorem book_bind {α : Type} (owner : ComponentId) (name : String) (kind : Kind)
    (finish : String → UInt16 → Std.TreeMap String Target → Except StructuralError α) :
    (do
      let path ← hw.childPath owner name
      let num ← hw.nextNum kind
      let paths ← hw.claim path ⟨kind,num⟩
      finish path num paths) = (do
      let (path,num) ← hw.book owner name kind
      finish path num (hw.paths.insert path ⟨kind,num⟩)) := by
  simp only [book,bind_assoc,pure_bind]
  refine congrArg _ (funext fun path => congrArg _ (funext fun num => ?_))
  rw [claim]
  split <;> rfl

/-- Every declaration first asks for its bus, then for its path and its number, and is pushed last. -/
theorem declare_eq (declaration : Declaration) : hw.declare declaration = (do
    hw.tap declaration
    let (path,num) ← hw.book declaration.owner declaration.name declaration.kind
    return (num,hw.place path num declaration)) := by
  cases declaration with
  | component parent name =>
    rw [declare,declareComponent,book_bind,except_map_eq_bind,bind_assoc]
    rfl
  | bus name width =>
    rw [declare,declareBus,book_bind,except_map_eq_bind,bind_assoc]
    rfl
  | control owner name action autoClear =>
    cases tapped : action.bus? with
    | none =>
      simp only [declare,declareControl,tap,Declaration.bus?,tapped,book_bind]
      rw [except_map_eq_bind,bind_assoc]
      rfl
    | some bus =>
      simp only [declare,declareControl,tap,Declaration.bus?,tapped,book_bind]
      rw [except_map_eq_bind,bind_assoc]
      cases hw.bus bus with
      | error reason => rfl
      | ok decl =>
        rw [except_ok_bind,except_ok_bind,bind_assoc]
        rfl
  | status owner name =>
    rw [declare,declareStatus,book_bind,except_map_eq_bind,bind_assoc]
    rfl

theorem declare_ok {num : UInt16} : hw.declare declaration = .ok (num,next) ↔
    ∃ path, hw.Admits declaration path ∧ num = UInt16.ofNat (hw.count declaration.kind) ∧
      next = hw.place path num declaration := by
  rw [declare_eq]
  constructor
  · intro made
    obtain ⟨⟨⟩,tapped,made⟩ := except_bind_ok.mp made
    obtain ⟨⟨path,booked⟩,reserved,⟨⟩⟩ := except_bind_ok.mp made
    obtain ⟨owned,⟨room,same⟩,free⟩ := book_ok.mp reserved
    exact ⟨path,⟨owned,tap_ok.mp tapped,room,free⟩,same,rfl⟩
  · rintro ⟨path,⟨owned,tapped,room,free⟩,same,rfl⟩
    refine except_bind_ok.mpr ⟨(),tap_ok.mpr tapped,?_⟩
    exact except_bind_ok.mpr ⟨_,book_ok.mpr ⟨owned,⟨room,same⟩,free⟩,rfl⟩

theorem run_ask {α β : Type} (question : Registry → Except StructuralError α)
    (rest : α → Building β) : (ask question >>= rest).run hw = match question hw with
      | .ok a => (rest a).run hw
      | .error reason => .error reason hw := by
  simp only [bind,EStateM.bind,EStateM.run,ask]
  cases question hw <;> rfl

theorem run_reserve {α : Type} (owner : ComponentId) (name : String) (kind : Kind)
    (rest : String × UInt16 → Building α) :
    (reserve owner name kind >>= rest).run hw = match hw.book owner name kind with
      | .ok (path,num) =>
        (rest (path,num)).run { hw with paths := hw.paths.insert path ⟨kind,num⟩ }
      | .error reason => .error reason hw := by
  simp only [reserve,bind_assoc,run_ask,book]
  cases hw.childPath owner name with
  | error reason => rfl
  | ok path =>
    cases hw.nextNum kind with
    | error reason => rfl
    | ok num =>
      simp only [except_ok_bind,claim]
      cases hw.paths.contains path <;> rfl

theorem run_call (declaration : Declaration) : (call declaration).run hw =
    match hw.declare declaration with
    | .ok (num,next) => .ok num next
    | .error reason => .error reason hw := by
  have bare (free : declaration.bus? = none) : hw.tap declaration = .ok () := by
    simp [tap,free,pure,Except.pure]
  rw [declare_eq]
  cases declaration with
  | component parent name =>
    rw [bare rfl,call,run_reserve,Declaration.owner,Declaration.name,Declaration.kind]
    cases hw.book parent name .component <;> rfl
  | bus name width =>
    rw [bare rfl,call,run_reserve,Declaration.owner,Declaration.name,Declaration.kind]
    cases hw.book root name .bus <;> rfl
  | control owner name action autoClear =>
    simp only [call,Declaration.owner,Declaration.name,Declaration.kind]
    cases tapped : action.bus? with
    | none =>
      rw [bare tapped,run_reserve]
      cases hw.book owner name .control <;> rfl
    | some bus =>
      simp only [tap,Declaration.bus?,tapped,run_ask,run_reserve]
      cases hw.bus bus with
      | error reason => rfl
      | ok decl => cases hw.book owner name .control <;> rfl
  | status owner name =>
    rw [bare rfl,call,run_reserve,Declaration.owner,Declaration.name,Declaration.kind]
    cases hw.book owner name .status <;> rfl

@[simp]
theorem size_namings (hw : Registry) (kind : Kind) : (hw.namings kind).size = hw.count kind := by
  cases kind <;> simp [namings,count]

section Placing
variable {path : String} (num : UInt16)

theorem namings_place (kind : Kind) : (hw.place path num declaration).namings kind =
    if kind = declaration.kind then
      (hw.namings kind).push ⟨some declaration.owner,declaration.name,path⟩
    else hw.namings kind := by
  cases declaration <;> cases kind <;>
    simp [place,namings,Declaration.kind,Declaration.owner,Declaration.name]

theorem lookup_place (other : String) : (hw.place path num declaration).lookup other =
    if other = path then .ok ⟨declaration.kind,num⟩ else hw.lookup other := by
  have inserted : (hw.place path num declaration).paths =
      hw.paths.insert path ⟨declaration.kind,num⟩ := by
    cases declaration <;> rfl
  by_cases same : other = path
  · simp [lookup,inserted,same]
  · simp [lookup,inserted,Std.TreeMap.getElem?_insert,same,Ne.symm same]

theorem component?_place {id : ComponentId} {decl : ComponentDecl}
    (known : hw.component? id = some decl) :
    (hw.place path num declaration).component? id = some decl := by
  cases declaration with
  | component parent name =>
    change (hw.components.push _)[id.index]? = some decl
    obtain ⟨inside,_⟩ := Array.getElem?_eq_some_iff.mp known
    rwa [Array.getElem?_push,if_neg (Nat.ne_of_lt inside)]
  | bus name width => exact known
  | control owner name action autoClear => exact known
  | status owner name => exact known

theorem bus?_place {id : BusId} (known : (hw.bus? id).isSome) :
    ((hw.place path num declaration).bus? id).isSome := by
  cases declaration with
  | bus name width =>
    change ((hw.buses.push _)[id.index]?).isSome
    rw [Array.getElem?_push]
    split
    · rfl
    · exact known
  | component parent name => exact known
  | control owner name action autoClear => exact known
  | status owner name => exact known

theorem control?_place {id : ControlId} {decl : ControlDecl}
    (known : (hw.place path num declaration).control? id = some decl) :
    hw.control? id = some decl ∨ decl.action.bus? = declaration.bus? := by
  cases declaration with
  | control owner name action autoClear =>
    change (hw.controls.push _)[id.index]? = _ at known
    rw [Array.getElem?_push] at known
    split at known
    · cases known
      exact .inr rfl
    · exact .inl known
  | component parent name => exact .inl known
  | bus name width => exact .inl known
  | status owner name => exact .inl known

end Placing

theorem toNat_next {kind : Kind} (room : hw.count kind ≤ 65535) :
    (UInt16.ofNat (hw.count kind)).toNat = hw.count kind :=
  UInt16.toNat_ofNat_of_lt' (by simpa using Nat.lt_succ_of_le room)

theorem naming?_next {kind : Kind} (room : hw.count kind ≤ 65535) :
    hw.naming? ⟨kind,UInt16.ofNat (hw.count kind)⟩ = none := by
  simp [naming?,toNat_next room]

theorem naming?_place {path : String} (room : hw.count declaration.kind ≤ 65535) (target : Target) :
    (hw.place path (UInt16.ofNat (hw.count declaration.kind)) declaration).naming? target =
      if target = ⟨declaration.kind,UInt16.ofNat (hw.count declaration.kind)⟩ then
        some ⟨some declaration.owner,declaration.name,path⟩
      else hw.naming? target := by
  obtain ⟨kind,num⟩ := target
  simp only [naming?,namings_place,Target.mk.injEq]
  by_cases same : kind = declaration.kind
  · subst same
    rw [if_pos rfl,Array.getElem?_push,size_namings,← toNat_next room]
    simp only [UInt16.toNat_inj,true_and,UInt16.ofNat_toNat]
  · simp [same]

theorem count_place (path : String) (num : UInt16) (kind : Kind) :
    (hw.place path num declaration).count kind =
      hw.count kind + if kind = declaration.kind then 1 else 0 := by
  rw [← size_namings,namings_place]
  split <;> simp

namespace WellFormed

theorem initial : Registry.initial.WellFormed := by
  have alone (target : Target) (naming : Naming) : Registry.initial.naming? target = some naming ↔
      target = ⟨.component,root.num⟩ ∧ naming = ⟨none,"","/"⟩ := by
    obtain ⟨kind,num⟩ := target
    cases kind with
    | component =>
      rw [Target.mk.injEq,← UInt16.toNat_inj]
      cases place : num.toNat <;> simp [naming?,namings,Registry.initial,root,place,eq_comm]
    | control => simp [naming?,namings,Registry.initial]
    | status => simp [naming?,namings,Registry.initial]
    | bus => simp [naming?,namings,Registry.initial]
  have found (path : String) : Registry.initial.lookup path =
      if path = "/" then .ok ⟨.component,root.num⟩ else .error (.unknownPath path) := by
    by_cases same : path = "/"
    · simp [lookup,Registry.initial,root,same]
    · simp [lookup,Registry.initial,same,Ne.symm same]
  refine ⟨fun kind => by cases kind <;> decide,fun path target => ?_,fun target naming known => ?_,?_⟩
  · simp only [alone,found]
    by_cases same : path = "/"
    · simp only [same,if_true,Except.ok.injEq]
      exact ⟨fun here => ⟨_,⟨here.symm,rfl⟩,rfl⟩,fun ⟨_,⟨here,_⟩,_⟩ => here.symm⟩
    · simp [same,Ne.symm same]
  · exact .inl ((alone target naming).mp known)
  · intro id decl bus known
    simp [control?,Registry.initial] at known

theorem place {path : String} (good : hw.WellFormed) (fits : hw.Admits declaration path) :
    (hw.place path (UInt16.ofNat (hw.count declaration.kind)) declaration).WellFormed where
  limit kind := by
    rw [count_place]
    split
    next same => exact same ▸ Nat.succ_le_succ fits.room
    next other => exact good.limit kind
  leads other target := by
    rw [lookup_place,naming?_place fits.room]
    by_cases here : other = path
    · rw [if_pos here]
      split
      next new => simp [new,here]
      next old =>
        -- what is declared at a free path is the new declaration alone
        refine iff_of_false (fun same => old (Except.ok.inj same).symm) ?_
        intro declared
        have found := (good.leads other target).mpr declared
        simp [lookup,here,fits.free] at found
    · rw [if_neg here,good.leads]
      split
      next new =>
        rw [new,naming?_next fits.room]
        simp [Ne.symm here]
      next old => rfl
  under target naming known := by
    rw [naming?_place fits.room] at known
    split at known
    next new =>
      cases known
      obtain ⟨decl,found,extends_⟩ := fits.owned
      refine .inr ⟨_,decl,rfl,component?_place _ found,extends_,fun component => ?_⟩
      have before : declaration.owner.index < hw.components.size :=
        (Array.getElem?_eq_some_iff.mp found).1
      rw [new,UInt16.lt_iff_toNat_lt,toNat_next fits.room]
      rw [new] at component
      exact (congrArg hw.count component).symm ▸ before
    next old =>
      obtain alone | ⟨owner,decl,owned,found,path,above⟩ := good.under target naming known
      · exact .inl alone
      · exact .inr ⟨owner,decl,owned,component?_place _ found,path,above⟩
  taps id decl bus known tapped := by
    apply bus?_place
    obtain old | same := control?_place _ known
    · exact good.taps id decl bus old tapped
    · exact fits.tapped bus (same ▸ tapped)

end WellFormed

theorem declarations_place (path : String) (num : UInt16) (kind : Kind) :
    (hw.place path num declaration).declarations kind =
      hw.declarations kind ++ if kind = declaration.kind then [declaration] else [] := by
  cases declaration <;> cases kind <;> simp [place,declarations,Declaration.kind]

def made (kind : Kind) (given : List (Declaration × UInt16)) : List (Declaration × Nat) :=
  (given.filter fun item => item.1.kind = kind).map fun item => (item.1,item.2.toNat)

theorem wellFormed_callAll (good : hw.WellFormed) (calls : List Declaration) :
    (callAll calls hw).2.WellFormed := by
  induction calls generalizing hw with
  | nil => exact good
  | cons declaration rest ih =>
    rw [callAll,run_call]
    cases declared : hw.declare declaration with
    | error reason => exact ih good
    | ok result =>
      obtain ⟨num,next⟩ := result
      obtain ⟨path,fits,rfl,rfl⟩ := declare_ok.mp declared
      exact ih (good.place fits)

theorem made_callAll (hw : Registry) (calls : List Declaration) (kind : Kind) :
    ∃ later, (callAll calls hw).2.declarations kind = hw.declarations kind ++ later ∧
      made kind (callAll calls hw).1 = later.zipIdx (hw.count kind) := by
  induction calls generalizing hw with
  | nil => exact ⟨[],by simp [callAll],rfl⟩
  | cons declaration rest ih =>
    rw [callAll,run_call]
    cases declared : hw.declare declaration with
    | error reason => exact ih hw
    | ok result =>
      obtain ⟨num,next⟩ := result
      obtain ⟨path,fits,rfl,rfl⟩ := declare_ok.mp declared
      obtain ⟨later,kept,numbered⟩ := ih (hw.place path _ declaration)
      rw [declarations_place,List.append_assoc] at kept
      rw [count_place] at numbered
      refine ⟨_,kept,?_⟩
      by_cases same : declaration.kind = kind
      · subst same
        rw [if_pos rfl] at numbered ⊢
        rw [List.singleton_append,List.zipIdx_cons,← numbered]
        simp [made,toNat_next fits.room]
      · rw [if_neg (Ne.symm same)] at numbered ⊢
        rw [List.nil_append,← Nat.add_zero (hw.count kind),← numbered]
        simp [made,same]

/-- After any calls, refused ones included, the registry is in order: what was declared of a kind
stands in the order of the calls, numbered from the first free number on. A further call declares
what is admitted, and changes nothing otherwise. -/
theorem wellFormed_after_calls (calls : List Declaration) :
    (callAll calls initial).2.WellFormed ∧
    (∀ kind, made kind (callAll calls initial).1 =
      ((callAll calls initial).2.declarations kind).zipIdx (initial.count kind)) ∧
    ∀ declaration, match (call declaration).run (callAll calls initial).2 with
      | .ok num next => (callAll calls initial).2.declare declaration = .ok (num,next) ∧
          ∃ path, (callAll calls initial).2.Admits declaration path
      | .error reason next => (callAll calls initial).2.declare declaration = .error reason ∧
          next = (callAll calls initial).2 ∧
          ¬∃ path, (callAll calls initial).2.Admits declaration path := by
  refine ⟨wellFormed_callAll .initial calls,fun kind => ?_,fun declaration => ?_⟩
  · obtain ⟨later,kept,numbered⟩ := made_callAll initial calls kind
    rw [numbered,kept]
    cases kind <;> rfl
  · rw [run_call]
    cases declared : (callAll calls initial).2.declare declaration with
    | error reason =>
      refine ⟨rfl,rfl,?_⟩
      rintro ⟨path,fits⟩
      simp [declare_ok.mpr ⟨path,fits,rfl,rfl⟩] at declared
    | ok result =>
      obtain ⟨path,fits,_⟩ := declare_ok.mp declared
      exact ⟨rfl,path,fits⟩

end Registry
end Microprogram
