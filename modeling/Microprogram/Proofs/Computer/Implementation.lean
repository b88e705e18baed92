import Microprogram.Proofs.Computer.Boundaries

/-! The microcode implements the instruction set. Between two moments at which the step
counter is at zero the computer goes through one instruction, and what a program sees of
it changes as the mnemonic means. -/
namespace Microprogram

/-- Ticks take a computer through one instruction, to the next moment at which the step
counter is at zero, where a program sees the given view, or to the given fault. -/
def Computer.CarriesOut (c : Computer) (effect : Except Fault View) : Prop :=
  ∃ n, 0 < n ∧
    (∀ k mid, 0 < k → k < n → c.ticks k = .done mid → mid.stepCounter? ≠ some 0) ∧
      match effect with
      | .ok v => ∃ last, c.ticks n = .done last ∧ last.stepCounter? = some 0 ∧ last.view? = some v
      | .error fault => ∃ also last, c.ticks n = .stopped also last ∧ also.timeless = fault

namespace Moment
variable {hw : Layout}

theorem Reaches.run {start m last : Moment} {n : Nat} (reached : start.Reaches hw m)
    (ran : m.run hw n = .ok last) : start.Reaches hw last := by
  induction n generalizing m with
  | zero =>
    cases ran
    exact reached
  | succ n ih =>
    obtain ⟨next,stepped,later⟩ := except_bind_ok.mp ran
    exact ih (.next reached stepped) later

variable (wired : hw.Wired) (config : Config) (saved : UInt16)
include wired

theorem view_computer (m : Moment) :
    (m.computer hw config saved).view? = some (m.contents.view hw) := by
  unfold Computer.view?
  rw [contents_computer wired]
  rfl

theorem carriesOut_of_follows {table : ControlTable} {sets : List ControlSet} {s : Contents}
    (some : sets ≠ []) (follows : Follows hw table (fun step _ => step = 0) sets 0 s) (number : Nat) :
    (computer hw config saved ⟨.byTable table 0,number,s⟩).CarriesOut
      ((s.play hw sets).map (Contents.view hw)) := by
  refine ⟨sets.length,List.length_pos_of_ne_nil some,?_,?_⟩
  · intro k mid positive fewer ticked
    have ran := ticks_computer wired config saved k ⟨.byTable table 0,number,s⟩
    cases reached : run hw k ⟨.byTable table 0,number,s⟩ with
    | error fault =>
      rw [reached] at ran
      obtain ⟨last,stopped⟩ := ran
      cases stopped.symm.trans ticked
    | ok last =>
      rw [reached] at ran
      obtain ⟨after,done⟩ := ran
      obtain rfl := Outcome.done.inj (done.symm.trans ticked)
      obtain ⟨step,counting,driven⟩ := follows.between positive fewer reached
      obtain ⟨driver,cycle,t⟩ := last
      obtain rfl : driver = _ := driven
      rw [step_computer wired]
      exact fun zero => counting (Option.some.inj zero)
  · have ran := ticks_computer wired config saved sets.length ⟨.byTable table 0,number,s⟩
    have replayed := follows.run number
    cases played : s.play hw sets with
    | error fault =>
      rw [played] at replayed
      cases reached : run hw sets.length ⟨.byTable table 0,number,s⟩ with
      | error also =>
        rw [reached] at ran replayed
        obtain ⟨last,stopped⟩ := ran
        exact ⟨also,last,stopped,Except.error.inj replayed⟩
      | ok last =>
        rw [reached] at replayed
        cases replayed
    | ok t =>
      rw [played] at replayed
      obtain ⟨_,rfl,reached⟩ := replayed
      rw [reached] at ran
      obtain ⟨after,done⟩ := ran
      exact ⟨_,done,step_computer wired config after table 0 _ t,view_computer wired config after _⟩

end Moment

namespace Computer.Design

section Compiled
variable {design : Design} {plain joined : Program} {split merged : ControlTable}
  (compiles : design.Compiles plain joined split merged)
include compiles

/-- From the start of an instruction the compiled table goes through cycles with the effect
that the mnemonic means. -/
theorem follows_meaning {config : Config} {number : Nat} {s : Contents}
    (here : design.Settled config merged ⟨.byTable merged 0,number,s⟩)
    (awake : (s.view design.layout).halted = false) {d : Descriptor}
    (listed : d ∈ design.catalog.descriptors) (reads : MemoryMap.read s.regions s.pc = .ok d.opcode) :
    ∃ meaning, Meaning.ofName d.name = some meaning ∧
      (meaning.usesAddress = true → d.mode = .absolute) ∧
      (meaning.Accesses config d.mode { s.view design.layout with pc := s.pc + 1 } →
        ∃ sets, sets ≠ [] ∧ Follows design.layout merged (fun step _ => step = 0) sets 0 s ∧
          (s.play design.layout sets).map (Contents.view design.layout) =
            meaning.effect d.mode { s.view design.layout with pc := s.pc + 1 }) := by
  obtain ⟨⟨step,driven,knows⟩,shown,places⟩ := here
  obtain ⟨_,rfl⟩ := Driver.byTable.inj driven
  have running : design.layout.root.halted ∉ s.lines := (SortedSet.contains_eq_false _ _).mp awake
  obtain ⟨recipe,inside,name,mode,holds,sets,some,follows,played⟩ :=
    follows_recipe compiles (knows rfl) running listed reads
  rw [compiles.standard] at inside shown holds
  obtain ⟨meaning,named,absolute,achieves⟩ := Recipe.recipes_faithful recipe inside
  refine ⟨meaning,name ▸ named,fun uses => mode.trans (absolute uses),fun accesses => ?_⟩
  have effect := achieves config d (fetched d.opcode s) shown places holds
    (mode ▸ compiles.standard ▸ accesses)
  rw [← mode,← compiles.standard,← played] at effect
  exact ⟨sets,some,follows,effect⟩

end Compiled

/-- The microcode implements the instruction set. Wherever the table of the computer is at
the start of an instruction of the catalog, and the memory is there that the instruction
uses, ticks have the effect that its mnemonic means. -/
theorem implements_instruction_set {design : Design} (built : build = .ok design) :
    ∃ table, design.table = .ok table ∧
      ∀ (program : List UInt8) (config : Config), config.validate = .ok () →
        config.admits program.length = .ok () →
        ∃ start, withTable design.layout table program config = .ok start ∧
          ∀ c, Reachable start c → c.stepCounter? = some 0 → c.machine.isHalted = false →
            ∃ v, c.view? = some v ∧ ∀ d ∈ design.catalog.toList, v.memory v.pc = .ok d.opcode →
              ∃ meaning, Meaning.ofName d.name = some meaning ∧
                (meaning.Accesses config d.mode { v with pc := v.pc + 1 } →
                  c.CarriesOut (meaning.effect d.mode { v with pc := v.pc + 1 }) ∧
                    (meaning ≠ .crash →
                      ∃ after, meaning.effect d.mode { v with pc := v.pc + 1 } = .ok after)) := by
  obtain ⟨plain,joined,split,merged,compiles,_,compiled⟩ := Design.compiles built
  have wired := compiles.wired
  refine ⟨merged,compiled,fun program config valid fits => ?_⟩
  refine ⟨_,withTable_ok compiles.layout merged valid fits,?_⟩
  intro c reachable counter running
  obtain ⟨m,saved,rfl,reached⟩ := Moment.reachable_moment wired reachable
  have here := settled compiles built fits reached
  obtain ⟨driver,number,s⟩ := m
  obtain ⟨step,driven,_⟩ := here.boundary
  obtain rfl : driver = _ := driven
  rw [Moment.step_computer wired] at counter
  obtain rfl := Option.some.inj counter
  refine ⟨_,Moment.view_computer wired config saved _,fun d listed reads => ?_⟩
  obtain ⟨meaning,named,absolute,achieves⟩ := follows_meaning compiles here running listed reads
  refine ⟨meaning,named,fun accesses => ⟨?_,fun runs => ?_⟩⟩
  · obtain ⟨sets,some,follows,effect⟩ := achieves accesses
    exact effect ▸ Moment.carriesOut_of_follows wired config saved some follows number
  · exact accesses.effect_total (fun _ mapped => here.places.reads mapped) absolute runs

/-- A run of the compiled table comes to the start of an instruction, where a program sees the
given view. -/
def Shows (design : Design) (table : ControlTable) (start : Moment) (v : View) : Prop :=
  ∃ number s, start.Reaches design.layout ⟨.byTable table 0,number,s⟩ ∧ s.view design.layout = v

theorem Shows.next {design : Design} {plain joined : Program} {split merged : ControlTable}
    (compiles : design.Compiles plain joined split merged) (built : build = .ok design)
    {program : List UInt8} {config : Config} (fits : config.admits program.length = .ok ()) {v w : View}
    (shows : design.Shows merged (.initial (.byTable merged 0) program config) v)
    (awake : v.halted = false) {d : Descriptor} (listed : d ∈ descriptors)
    (reads : v.memory v.pc = .ok d.opcode) {meaning : Meaning}
    (named : Meaning.ofName d.name = some meaning)
    (accesses : meaning.Accesses config d.mode { v with pc := v.pc + 1 })
    (effect : meaning.effect d.mode { v with pc := v.pc + 1 } = .ok w) :
    design.Shows merged (.initial (.byTable merged 0) program config) w := by
  obtain ⟨number,s,reached,rfl⟩ := shows
  have known := ((Catalog.ofList_indexes (build_ok built).2.1).members d).mpr listed
  obtain ⟨other,same,_,achieves⟩ :=
    follows_meaning compiles (settled compiles built fits reached) awake known reads
  obtain rfl := Option.some.inj (named.symm.trans same)
  obtain ⟨sets,_,follows,achieved⟩ := achieves accesses
  obtain ⟨t,played,seen⟩ := except_map_ok.mp (achieved.trans effect)
  have ran := follows.run number
  rw [played] at ran
  obtain ⟨_,rfl,ran⟩ := ran
  exact ⟨_,t,reached.run ran,seen⟩

def small : Config := { ramSize := 4, romSize := 4 }

/-- A program that loads a byte into A does so. -/
theorem implements_load : ∃ design table start, build = .ok design ∧ design.table = .ok table ∧
    withTable design.layout table [0x10,0x07] small = .ok start ∧
      start.CarriesOut (.ok ⟨0x07,0,0,0,0x8002,false,MemoryMap.read (regionsOf [0x10,0x07] small)⟩) := by
  obtain ⟨design,built⟩ := build_total
  obtain ⟨layout,listed,_⟩ := build_ok built
  have wired := Layout.build_wired layout
  obtain ⟨table,compiled,implements⟩ := implements_instruction_set built
  have valid : small.validate = .ok () := by decide +kernel
  have fits : small.admits [0x10,0x07].length = .ok () := by decide
  obtain ⟨start,made,implements⟩ := implements [0x10,0x07] small valid fits
  obtain rfl := Except.ok.inj ((withTable_ok layout table valid fits).symm.trans made)
  obtain ⟨v,seen,implements⟩ := implements _ .start (Moment.step_computer wired _ _ _ _ _ _) rfl
  obtain rfl := Option.some.inj ((Moment.view_computer wired _ _ _).symm.trans seen)
  have memory : ((Contents.initial [0x10,0x07] small).view design.layout).memory =
      MemoryMap.read (regionsOf [0x10,0x07] small) := rfl
  have opcode : MemoryMap.read (regionsOf [0x10,0x07] small) 0x8000 = .ok 0x10 := by decide +kernel
  have operand : MemoryMap.read (regionsOf [0x10,0x07] small) 0x8001 = .ok 0x07 := by decide +kernel
  have mapped : small.Mapped 0x8001 := .inr (by decide +kernel)
  have member : ⟨0x10,"lda",.immediate,"Load A with immediate value"⟩ ∈ design.catalog.toList :=
    ((Catalog.ofList_indexes listed).members _).mpr (by simp [descriptors])
  rw [← memory] at opcode operand
  obtain ⟨meaning,named,implements⟩ := implements _ member opcode
  obtain rfl : Meaning.load .a = meaning := Option.some.inj named
  have carries := (implements (Meaning.accesses_immediate mapped (by simp))).1
  have effect : (Meaning.load .a).effect .immediate
      { (Contents.initial [0x10,0x07] small).view design.layout with pc := 0x8001 } =
        .ok ⟨0x07,0,0,0,0x8002,false,MemoryMap.read (regionsOf [0x10,0x07] small)⟩ := by
    rw [Meaning.effect,View.operand,View.byte,operand]
    rfl
  exact ⟨design,table,_,built,compiled,made,effect ▸ carries⟩

end Computer.Design
end Microprogram
