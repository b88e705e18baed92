import Microprogram.Proofs.Computer.Boundaries
import Microprogram.Proofs.Computer.MemoryMap

/-! Merged and unmerged tables run every program alike. From the start of an instruction
both tables replay the same steps, so a run of one is followed by the other from one
instruction to the next, and the table with merging is always ahead. -/
namespace Microprogram.Computer
namespace Design

/-- Where no instruction is found for the opcode that was fetched. -/
def Stuck (hw : Layout) (catalog : Catalog) (step : UInt8) (s : Contents) : Prop :=
  step = 2 ∧ ¬catalog.Knows s.opcode ∧ hw.root.halted ∉ s.lines

/-- Control sets that two tables follow from the start of an instruction. -/
inductive Alike (design : Design) (split merged : ControlTable) (s : Contents) : Prop
  /-- The instruction runs to its end, in fewer cycles where steps are merged. -/
  | completes (sets others : List ControlSet)
      (first : Follows design.layout split (fun step t => step = 0 ∧ design.catalog.Knows t.opcode)
        sets 0 s)
      (second : Follows design.layout merged (fun step t => step = 0 ∧ design.catalog.Knows t.opcode)
        others 0 s)
      (fewer : others.length < sets.length)
      (same : s.play design.layout others = s.play design.layout sets)
      (prompt : ∀ n fault, s.play design.layout (sets.take n) = .error fault →
        s.play design.layout (others.take n) = .error fault)
  /-- No instruction is found. -/
  | stops (sets others : List ControlSet)
      (first : Follows design.layout split (Stuck design.layout design.catalog) sets 0 s)
      (second : Follows design.layout merged (Stuck design.layout design.catalog) others 0 s)
      (equal : others.length = sets.length)
      (same : ∀ t, s.play design.layout sets = .ok t →
        ∃ u, s.play design.layout others = .ok u ∧ u.opcode = t.opcode)
      (prompt : ∀ n fault, s.play design.layout (sets.take n) = .error fault →
        s.play design.layout (others.take n) = .error fault)

theorem cycle_next (number : Nat) (s : Contents) :
    s.cycle Layout.standard number (counted Layout.standard (fetchNext Layout.standard)).controls =
      .ok { s with pc := s.pc + 1 } := rfl

/-- A run that halts is matched by one that halts earlier with the same contents, and a run
that stops with a fault by one that stops with the same fault. -/
def Matched (first second : Except Fault Moment) : Prop :=
  match first with
  | .ok last => ∃ reached, second = .ok reached ∧ reached.cycle < last.cycle ∧
      reached.contents = last.contents
  | .error fault => (∀ n, fault ≠ .cycleLimitExceeded n) →
      ∃ stopped, second = .error stopped ∧ stopped.timeless = fault.timeless

theorem matched_of_faults {first second : Except Fault Moment} {fault : Fault}
    (one : first.mapError Fault.timeless = .error fault)
    (two : second.mapError Fault.timeless = .error fault) : Matched first second := by
  cases first with
  | ok last => cases one
  | error cause =>
    cases second with
    | ok last => cases two
    | error effect =>
      cases one
      exact fun _ => ⟨effect,rfl,Except.error.inj two⟩

section Compiled
variable {design : Design} {plain joined : Program} {split merged : ControlTable}
  (compiles : design.Compiles plain joined split merged)
include compiles

theorem play_fetch {s : Contents} (known : design.catalog.Knows s.opcode) :
    let hw := design.layout
    let sets := [(counted hw (fetchAddress hw)).controls,(counted hw (fetchOpcode hw)).controls]
    let others := [(counted hw (fetchAddress hw)).controls,(mergedFetch hw).controls]
    s.play hw others = (s.play hw sets).map (fun t => { t with pc := t.pc + 1 }) ∧
      ∀ n fault, s.play hw (sets.take n) = .error fault → s.play hw (others.take n) = .error fault := by
  have standard := compiles.standard
  have wired := compiles.wired
  have sound := compiles.fetch_sound known
  obtain ⟨layout,catalog,drafts⟩ := design
  dsimp only at standard sound wired ⊢
  subst standard
  constructor
  · refine (Variant.play_mergedSteps wired mergedSteps_fetch sound s).trans ?_
    change s.play Layout.standard ([_,_] ++ [_]) = _
    rw [Contents.play_append,except_map_eq_bind]
    refine bind_congr fun t => ?_
    rw [Contents.play_cons_ok (cycle_next 0 t)]
    rfl
  · intro n fault failed
    have bounded : s.play Layout.standard
        ((((fetchSteps Layout.standard).map (counted Layout.standard)).map Step.controls).take (min n 2)) =
          .error fault := by
      rw [← failed]
      match n with
      | 0 => rfl
      | 1 => rfl
      | n + 2 =>
        rw [Nat.min_eq_right (Nat.le_add_left 2 n)]
        exact congrArg (Contents.play Layout.standard · s)
          (List.take_of_length_le (Nat.le_add_left 2 n)).symm
    exact Contents.play_take (Nat.min_le_left n 2)
      (Variant.play_mergedSteps_prompt wired mergedSteps_fetch sound s (min n 2) bounded)

theorem follows_first {s t : Contents} (known : design.catalog.Knows s.opcode)
    (running : design.layout.root.halted ∉ s.lines)
    (fetched : s.play design.layout [(counted design.layout (fetchAddress design.layout)).controls,
      (counted design.layout (fetchOpcode design.layout)).controls] = .ok t)
    {first : Variant} (inside : first ∈ plain) (answers : first.Answers t.opcode t.lines.contains) :
    ∃ shorter, Variant.mergedSteps design.layout.hardware design.layout.controller.counter
        (first.sequenced design.layout.controller.counter).steps = .ok shorter ∧
      Follows design.layout split (fun step u => step = 0 ∧ design.catalog.Knows u.opcode)
        ((first.sequenced design.layout.controller.counter).steps.map Step.controls) 0 s ∧
      Follows design.layout merged (fun step u => step = 0 ∧ design.catalog.Knows u.opcode)
        (shorter.map Step.controls) 0 s := by
  have wired := compiles.wired
  have splits := compiles.executes_split
  have merges := compiles.executes_merged
  obtain ⟨fetches,_⟩ := play_fetch compiles known
  rw [fetched] at fetches
  have member : first.sequenced design.layout.controller.counter ∈
      plain.sequenced design.layout.controller.counter := Program.mem_sequenced.mpr ⟨first,inside,rfl⟩
  obtain ⟨shorter,joins⟩ := Variant.mergedSteps_total
    fun step listed => (compiles.sound inside step listed).declared
  have image : Variant.mk first.descriptor first.guard shorter ∈ joined :=
    (Program.mem_merged compiles.joins).mpr ⟨_,member,Variant.merged_of_steps joins⟩
  refine ⟨shorter,joins,(splits.follows_variant wired known running fetched member
    ⟨answers.opcode,answers.guard⟩).imp ?_,(merges.follows_variant wired known running fetches image
      ⟨answers.opcode,answers.guard⟩).imp ?_⟩
  · rintro step u ⟨rfl,kept⟩
    exact ⟨rfl,splits.knows_of_answers member kept⟩
  · rintro step u ⟨rfl,kept⟩
    exact ⟨rfl,merges.knows_of_answers image kept⟩

/-- From the start of an instruction both tables follow the same steps. -/
theorem alike {s : Contents} (known : design.catalog.Knows s.opcode)
    (running : design.layout.root.halted ∉ s.lines) : design.Alike split merged s := by
  have wired := compiles.wired
  have splits := compiles.executes_split
  have merges := compiles.executes_merged
  obtain ⟨fetches,prompt⟩ := play_fetch compiles known
  have before := splits.follows_fetch wired known running
  have after := merges.follows_fetch wired known running
  cases fetched : s.play design.layout [(counted design.layout (fetchAddress design.layout)).controls,
      (counted design.layout (fetchOpcode design.layout)).controls] with
  | error fault =>
    rw [fetched] at fetches
    refine .stops _ _ (before.with_play.imp ?_) (after.with_play.imp ?_) rfl (fun t played => ?_) prompt
    · rintro step t ⟨_,played⟩
      cases fetched.symm.trans played
    · rintro step t ⟨_,played⟩
      cases fetches.symm.trans played
    · cases fetched.symm.trans played
  | ok t =>
    rw [fetched] at fetches
    by_cases found : design.catalog.Knows t.opcode
    · obtain ⟨variant,member,answers⟩ := splits.applying found
      obtain ⟨first,inside,rfl⟩ := Program.mem_sequenced.mp member
      obtain ⟨later,regular⟩ := compiles.regular first inside
      obtain ⟨shorter,joins,follows,others⟩ := follows_first compiles known running fetched inside
        ⟨answers.opcode,answers.guard⟩
      refine .completes _ _ follows others ?_ ?_ ?_
      · rw [List.length_map,List.length_map]
        exact (regular.first.merged_length compiles.standard joins).2
      · exact Variant.play_mergedSteps wired joins (compiles.sound inside) s
      · exact fun n fault failed =>
          Variant.play_mergedSteps_prompt wired joins (compiles.sound inside) s n failed
    · refine .stops _ _ (before.with_play.imp ?_) (after.with_play.imp ?_) rfl (fun u played => ?_) prompt
      · rintro step u ⟨⟨rfl,still⟩,played⟩
        obtain rfl := Except.ok.inj (fetched.symm.trans played)
        exact ⟨rfl,found,still⟩
      · rintro step u ⟨⟨rfl,still⟩,played⟩
        obtain rfl := Except.ok.inj (fetches.symm.trans played)
        exact ⟨rfl,found,still⟩
      · obtain rfl := Except.ok.inj (fetched.symm.trans played)
        exact ⟨_,fetches,rfl⟩

omit compiles in
theorem runFor_stuck {hw : Layout} {catalog : Catalog} {program : Program} {table : ControlTable}
    {first second : Step} (executes : Executes hw catalog program table first second) {step : UInt8}
    {s : Contents} (stuck : Stuck hw catalog step s) (limit fuel number : Nat) :
    Moment.runFor hw limit fuel ⟨.byTable table step,number,s⟩ =
      .error (if fuel = 0 then .cycleLimitExceeded limit else .missingEntry s.opcode 2) := by
  obtain ⟨rfl,unknown,running⟩ := stuck
  have stays : ¬s.lines.contains hw.root.halted = true :=
    fun halted => running ((SortedSet.contains_iff _ _).mp halted)
  cases fuel with
  | zero => exact if_neg stays
  | succ fuel =>
    refine (if_neg stays).trans ?_
    unfold Moment.next
    dsimp only
    rw [executes.choose_unknown unknown]
    rfl

omit compiles in
/-- Runs that follow control sets match when what is left of them after the sets matches,
since a run that ends within the sets is matched already. -/
theorem matched_of_follows {hw : Layout} {ends finishes : UInt8 → Contents → Prop}
    {sets others : List ControlSet} {s : Contents} (first : Follows hw split ends sets 0 s)
    (second : Follows hw merged finishes others 0 s) (fewer : others.length ≤ sets.length)
    (replays : ∀ t, s.play hw sets = .ok t → ∃ u, s.play hw others = .ok u)
    (prompt : ∀ n fault, s.play hw (sets.take n) = .error fault →
      s.play hw (others.take n) = .error fault)
    {limit fuel also number other : Nat} (enough : fuel ≤ also)
    (after : sets.length ≤ fuel → ∀ step next t u, s.play hw sets = .ok t → s.play hw others = .ok u →
      ends step t → finishes next u →
        Matched (Moment.runFor hw limit (fuel - sets.length)
            ⟨.byTable split step,number + sets.length,t⟩)
          (Moment.runFor hw limit (also - others.length)
            ⟨.byTable merged next,other + others.length,u⟩)) :
    Matched (Moment.runFor hw limit fuel ⟨.byTable split 0,number,s⟩)
      (Moment.runFor hw limit also ⟨.byTable merged 0,other,s⟩) := by
  have one := first.runFor limit fuel number
  have two := second.runFor limit also other
  cases played : s.play hw (sets.take fuel) with
  | error fault =>
    rw [played] at one
    rw [Contents.play_take enough (prompt fuel fault played)] at two
    exact matched_of_faults one two
  | ok t =>
    rw [played] at one
    dsimp only at one
    by_cases short : fuel < sets.length
    · rw [if_pos short] at one
      rw [one]
      exact fun unlimited => absurd rfl (unlimited limit)
    · rw [if_neg short] at one
      rw [List.take_of_length_le (Nat.le_of_not_lt short)] at played
      obtain ⟨u,replayed⟩ := replays t played
      rw [List.take_of_length_le (by omega),replayed] at two
      dsimp only at two
      rw [if_neg (by omega)] at two
      obtain ⟨step,reached,one⟩ := one
      obtain ⟨next,also,two⟩ := two
      rw [one,two]
      exact after (Nat.le_of_not_lt short) step next t u played replayed reached also

/-- A run of the table without merging is followed by the table with merging, which has
used fewer cycles once the first instruction is over. -/
theorem runFor_alike (limit : Nat) {fuel also number other : Nat} {s : Contents} (enough : fuel ≤ also)
    (ahead : other ≤ number) (strict : design.layout.root.halted ∈ s.lines → other < number)
    (known : design.catalog.Knows s.opcode) :
    Matched (Moment.runFor design.layout limit fuel ⟨.byTable split 0,number,s⟩)
      (Moment.runFor design.layout limit also ⟨.byTable merged 0,other,s⟩) := by
  -- Over the cycles left, from the start of one instruction to the next.
  induction fuel using Nat.strongRecOn generalizing also number other s with
  | ind fuel ih =>
  by_cases halted : design.layout.root.halted ∈ s.lines
  · rw [Moment.runFor_halted (m := ⟨_,_,s⟩) halted,Moment.runFor_halted (m := ⟨_,_,s⟩) halted]
    exact ⟨_,rfl,strict halted,rfl⟩
  rcases alike compiles known halted with
    ⟨sets,others,first,second,fewer,same,prompt⟩ | ⟨sets,others,first,second,equal,same,prompt⟩
  · refine matched_of_follows first second (Nat.le_of_lt fewer)
      (fun t played => ⟨t,same.trans played⟩) prompt enough ?_
    intro whole step next t u played replayed begins starts
    obtain ⟨rfl,knows⟩ := begins
    obtain ⟨rfl,_⟩ := starts
    obtain rfl := Except.ok.inj (replayed.symm.trans (same.trans played))
    exact ih (fuel - sets.length) (by omega) (by omega) (by omega) (fun _ => by omega) knows
  · refine matched_of_follows first second (Nat.le_of_eq equal)
      (fun t played => (same t played).imp fun _ both => both.1) prompt enough ?_
    intro whole step next t u played replayed stuck stays
    obtain ⟨_,again,opcode⟩ := same t played
    obtain rfl := Except.ok.inj (replayed.symm.trans again)
    rw [runFor_stuck compiles.executes_split stuck,runFor_stuck compiles.executes_merged stays,opcode]
    by_cases last : fuel - sets.length = 0
    · rw [if_pos last]
      exact fun unlimited => absurd rfl (unlimited limit)
    · rw [if_neg last,if_neg (by omega)]
      exact fun _ => ⟨_,rfl,rfl⟩

end Compiled

section Single
variable {design : Design} {plain joined : Program} {split merged : ControlTable}
  (compiles : design.Compiles plain joined split merged) (built : build = .ok design)
  {name : String} {control : ControlId} {opcode : UInt8}
  (listed : ⟨name,.none,[.raise control]⟩ ∈ recipes design.layout)
  (means : ∀ d ∈ descriptors, d.name = name → d.opcode = opcode)
include compiles built listed means

/-- A program of one instruction of one step takes four cycles, and three where the fetch stage
is merged. -/
theorem follows_single : ∃ sets others, sets.length = 4 ∧ others.length = 3 ∧
    Follows design.layout split (fun step u => step = 0 ∧ design.catalog.Knows u.opcode) sets 0
      (Contents.initial [opcode] {}) ∧
    Follows design.layout merged (fun step u => step = 0 ∧ design.catalog.Knows u.opcode) others 0
      (Contents.initial [opcode] {}) ∧
    (Contents.initial [opcode] {}).play design.layout sets =
      (fetched opcode (Contents.initial [opcode] {})).perform [.raise control] ∧
    (Contents.initial [opcode] {}).play design.layout others =
      (Contents.initial [opcode] {}).play design.layout sets := by
  have wired := compiles.wired
  have standard := compiles.standard
  have valid : ({} : Config).validate = .ok () := by decide +kernel
  have known : design.catalog.Knows (Contents.initial [opcode] {}).opcode := knows_initial built
  have running : design.layout.root.halted ∉ (Contents.initial [opcode] {}).lines :=
    SortedSet.not_mem_empty _
  have reads : MemoryMap.read (Contents.initial [opcode] {}).regions (Contents.initial [opcode] {}).pc =
      .ok opcode := Config.read_entryPoint valid rfl
  obtain ⟨d,among,named,_,inside⟩ := drafted compiles listed
  dsimp only at named inside
  have indexes := Catalog.ofList_indexes (build_ok built).2.1
  obtain rfl := means d ((indexes.members d).mp among) named
  obtain ⟨later,regular⟩ := compiles.regular _ inside
  obtain ⟨fetches,_⟩ := play_fetch compiles known
  rw [show (Contents.initial [d.opcode] {}).play design.layout _ = _
    from standard ▸ play_mergedFetch reads] at fetches
  obtain ⟨t,fetched,same⟩ := except_map_ok.mp fetches.symm
  have answers : (Draft.ofEdits d (fetch design.layout ++ [.raise control])).variant.Answers t.opcode
      t.lines.contains := by
    rw [standard]
    exact ⟨congrArg Contents.opcode same.symm,rfl⟩
  obtain ⟨shorter,joins,follows,others⟩ := follows_first compiles known running fetched inside answers
  have four : ((Draft.ofEdits d (fetch design.layout ++ [.raise control])).variant.sequenced
      design.layout.controller.counter).steps.length = 4 := by
    rw [standard]
    rfl
  obtain ⟨more,fewer⟩ := regular.first.merged_length standard joins
  refine ⟨_,_,(List.length_map _).trans four,?_,follows,others,?_,?_⟩
  · rw [List.length_map]
    omega
  · rw [standard]
    exact play_sequencedDraft reads d [.raise control]
  · exact Variant.play_mergedSteps wired joins (compiles.sound inside) _

theorem single_halts {t : Contents}
    (performs : (fetched opcode (Contents.initial [opcode] {})).perform [.raise control] = .ok t)
    (halted : design.layout.root.halted ∈ t.lines) : ∃ saved also,
      ((Moment.initial (.byTable split 0) [opcode] {}).computer design.layout {} 0).runUntilHalt =
        .done (Moment.computer design.layout {} saved ⟨.byTable split 0,4,t⟩) ∧
      ((Moment.initial (.byTable merged 0) [opcode] {}).computer design.layout {} 0).runUntilHalt =
        .done (Moment.computer design.layout {} also ⟨.byTable merged 0,3,t⟩) := by
  obtain ⟨sets,others,four,three,follows,shorter,played,same⟩ :=
    follows_single compiles built listed means
  have enough : sets.length ≤ ({} : Config).maxCycles := four.trans_le (by decide)
  have ample : others.length ≤ ({} : Config).maxCycles := three.trans_le (by decide)
  obtain ⟨_,saved,⟨rfl,_⟩,first⟩ :=
    follows.runUntilHalt_done compiles.wired enough 0 (played.trans performs) halted
  obtain ⟨_,also,⟨rfl,_⟩,second⟩ :=
    shorter.runUntilHalt_done compiles.wired ample 0 (same.trans (played.trans performs)) halted
  rw [four] at first
  rw [three] at second
  exact ⟨saved,also,first,second⟩

theorem single_stops {fault : Fault}
    (performs : (fetched opcode (Contents.initial [opcode] {})).perform [.raise control] = .error fault) :
    ∃ also last, ((Moment.initial (.byTable split 0) [opcode] {}).computer design.layout {} 0).runUntilHalt =
      .stopped also last ∧ also.timeless = fault := by
  obtain ⟨sets,_,four,_,follows,_,played,_⟩ := follows_single compiles built listed means
  have enough : sets.length ≤ ({} : Config).maxCycles := four.trans_le (by decide)
  exact follows.runUntilHalt_stopped compiles.wired enough 0 (played.trans performs)

end Single

/-- The microcode runs every program alike with and without merging. When the computer
halts on the table without merging, it halts on the compiled table after fewer cycles
with the same contents, and when it stops with a fault other than the limit of cycles,
it stops with the same fault on the compiled table. -/
theorem merged_runs_alike {design : Design} (built : build = .ok design) :
    ∃ split merged, design.splitTable = .ok split ∧ design.table = .ok merged ∧
      ∀ (program : List UInt8) (config : Config), config.validate = .ok () →
        config.admits program.length = .ok () →
        ∃ first second, withTable design.layout split program config = .ok first ∧
          withTable design.layout merged program config = .ok second ∧
          (∀ last, first.runUntilHalt = .done last → ∃ other contents,
            second.runUntilHalt = .done other ∧ other.machine.cycle < last.machine.cycle ∧
              last.contents? = some contents ∧ other.contents? = some contents) ∧
          ∀ fault last, first.runUntilHalt = .stopped fault last →
            (∀ limit, fault ≠ .cycleLimitExceeded limit) →
            ∃ also other, second.runUntilHalt = .stopped also other ∧
              also.timeless = fault.timeless := by
  obtain ⟨plain,joined,split,merged,compiles,splits,merges⟩ := Design.compiles built
  refine ⟨split,merged,splits,merges,fun program config valid fits => ?_⟩
  have wired := compiles.wired
  refine ⟨_,_,withTable_ok compiles.layout split valid fits,
    withTable_ok compiles.layout merged valid fits,?_⟩
  have runs := runFor_alike compiles config.maxCycles (Nat.le_refl config.maxCycles)
    (Nat.le_refl 0) (s := Contents.initial program config)
    (fun halted => absurd halted (SortedSet.not_mem_empty _)) (knows_initial built)
  have first := Moment.runUntilHalt_computer wired config 0
    (Moment.initial (.byTable split 0) program config)
  have second := Moment.runUntilHalt_computer wired config 0
    (Moment.initial (.byTable merged 0) program config)
  change match Moment.runFor design.layout config.maxCycles config.maxCycles
    ⟨.byTable split 0,0,Contents.initial program config⟩ with | .ok _ => _ | .error _ => _ at first
  change match Moment.runFor design.layout config.maxCycles config.maxCycles
    ⟨.byTable merged 0,0,Contents.initial program config⟩ with | .ok _ => _ | .error _ => _ at second
  cases ran : Moment.runFor design.layout config.maxCycles config.maxCycles
      ⟨.byTable split 0,0,Contents.initial program config⟩ with
  | ok last =>
    rw [ran] at runs first
    obtain ⟨reached,also,fewer,same⟩ := runs
    rw [also] at second
    obtain ⟨after,done⟩ := first
    obtain ⟨later,finished⟩ := second
    refine ⟨?_,?_⟩
    · intro stopped halts
      obtain rfl := Outcome.done.inj (done.symm.trans halts)
      refine ⟨_,last.contents,finished,fewer,Moment.contents_computer wired config after last,?_⟩
      rw [← same]
      exact Moment.contents_computer wired config later reached
    · intro fault stopped fails
      cases done.symm.trans fails
  | error fault =>
    rw [ran] at runs first
    obtain ⟨state,stopped⟩ := first
    refine ⟨?_,?_⟩
    · intro last halts
      cases stopped.symm.trans halts
    · intro cause last fails other
      obtain ⟨rfl,rfl⟩ := Outcome.stopped.inj (stopped.symm.trans fails)
      obtain ⟨also,failed,timeless⟩ := runs other
      rw [failed] at second
      obtain ⟨state,ended⟩ := second
      exact ⟨also,state,ended,timeless⟩

theorem recipes_begin (hw : Layout) : ∃ rest, recipes hw =
    [⟨"hlt",.none,[.raise hw.root.halt]⟩,⟨"nop",.none,[.step [] []]⟩,
      ⟨"crs",.none,[.raise hw.root.crash]⟩] ++ rest := by
  unfold recipes
  simp only [List.append_assoc]
  exact ⟨_,rfl⟩

def atHalt : Contents := { Contents.initial [0x00] {} with
  address := 0x8000
  pc := 0x8001
  lines := .ofList [Layout.standard.root.halted] }

/-- A program that only halts takes four cycles, and three where steps are merged. One that
crashes does so on both tables. -/
theorem halting_runs_alike : ∃ design split merged, build = .ok design ∧
    design.splitTable = .ok split ∧ design.table = .ok merged ∧
      (∃ first second saved other, withTable design.layout split [0x00] {} = .ok first ∧
        withTable design.layout merged [0x00] {} = .ok second ∧
        first.runUntilHalt = .done (Moment.computer design.layout {} saved ⟨.byTable split 0,4,atHalt⟩) ∧
        second.runUntilHalt = .done other ∧ other.machine.cycle = 3 ∧ other.contents? = some atHalt) ∧
      ∃ first second fault last also other, withTable design.layout split [0x02] {} = .ok first ∧
        withTable design.layout merged [0x02] {} = .ok second ∧
        first.runUntilHalt = .stopped fault last ∧ fault.timeless = .crashed 0 ∧
        second.runUntilHalt = .stopped also other ∧ also.timeless = fault.timeless := by
  obtain ⟨design,built⟩ := build_total
  obtain ⟨split,merged,splits,merges,runs⟩ := merged_runs_alike built
  obtain ⟨_,_,_,_,compiles,again,also⟩ := Design.compiles built
  obtain rfl := Except.ok.inj (splits.symm.trans again)
  obtain rfl := Except.ok.inj (merges.symm.trans also)
  have wired := compiles.wired
  have standard := compiles.standard
  have valid : ({} : Config).validate = .ok () := by decide +kernel
  have made (table : ControlTable) (opcode : UInt8) := withTable_ok compiles.layout table valid
    (show ({} : Config).admits [opcode].length = .ok () from rfl)
  obtain ⟨rest,whole⟩ := recipes_begin design.layout
  refine ⟨design,split,merged,built,splits,merges,?_,?_⟩
  · obtain ⟨first,second,starts,begins,done,_⟩ := runs [0x00] {} valid rfl
    obtain rfl := Except.ok.inj ((made split 0x00).symm.trans starts)
    obtain rfl := Except.ok.inj ((made merged 0x00).symm.trans begins)
    have listed : ⟨"hlt",.none,[.raise design.layout.root.halt]⟩ ∈ recipes design.layout := by
      rw [whole]
      exact List.mem_cons_self
    have performs : (fetched 0x00 (Contents.initial [0x00] {})).perform
        [.raise design.layout.root.halt] = .ok atHalt := by
      rw [standard]
      rfl
    have halted : design.layout.root.halted ∈ atHalt.lines := by
      rw [standard]
      exact (SortedSet.contains_iff _ _).mp (by decide)
    obtain ⟨saved,_,four,three⟩ :=
      single_halts compiles built listed (by decide) performs halted
    obtain ⟨other,contents,ended,_,seen,also⟩ := done _ four
    obtain rfl := Outcome.done.inj (three.symm.trans ended)
    obtain rfl := Option.some.inj ((Moment.contents_computer wired {} saved _).symm.trans seen)
    exact ⟨_,_,saved,_,starts,begins,four,ended,rfl,also⟩
  · obtain ⟨first,second,starts,begins,_,fails⟩ := runs [0x02] {} valid rfl
    obtain rfl := Except.ok.inj ((made split 0x02).symm.trans starts)
    have listed : ⟨"crs",.none,[.raise design.layout.root.crash]⟩ ∈ recipes design.layout := by
      rw [whole]
      exact List.mem_append_left rest (by simp)
    have performs : (fetched 0x02 (Contents.initial [0x02] {})).perform
        [.raise design.layout.root.crash] = .error (.crashed 0) := by
      rw [standard]
      rfl
    obtain ⟨fault,last,stopped,timeless⟩ := single_stops compiles built listed (by decide) performs
    have early : ∀ limit, fault ≠ .cycleLimitExceeded limit := by
      rintro limit rfl
      cases timeless
    obtain ⟨also,other,ended,same⟩ := fails fault last stopped early
    exact ⟨_,_,fault,last,also,other,starts,begins,stopped,timeless,ended,same⟩

end Design
end Microprogram.Computer
