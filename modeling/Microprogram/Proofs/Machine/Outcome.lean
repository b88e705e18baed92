import Mathlib.Control.Basic
import Microprogram.Part.Basic

/-! Outcomes by their result: what was reached, or the fault that stopped it. Where
a fault leaves the state does not matter to a machine, which goes back anyway. -/
namespace Microprogram

theorem except_bind_ok {ε α β : Type} {first : Except ε α} {next : α → Except ε β} {b : β} :
    (first >>= next) = .ok b ↔ ∃ a, first = .ok a ∧ next a = .ok b := by
  cases first with
  | error error => simp [bind,Except.bind]
  | ok a => simp [bind,Except.bind]

theorem except_bind_error {ε α β : Type} {first : Except ε α} {next : α → Except ε β} {error : ε} :
    (first >>= next) = .error error ↔
      first = .error error ∨ ∃ a, first = .ok a ∧ next a = .error error := by
  cases first with
  | error other => simp [bind,Except.bind]
  | ok a => simp [bind,Except.bind]

theorem except_ok_bind {ε α β : Type} (a : α) (next : α → Except ε β) :
    (Except.ok a >>= next) = next a := rfl

theorem except_map_eq_bind {ε α β : Type} (e : Except ε α) (f : α → β) :
    e.map f = e >>= fun a => pure (f a) := by
  cases e <;> rfl

theorem except_map_ok {ε α β : Type} {first : Except ε α} {f : α → β} {b : β} :
    first.map f = .ok b ↔ ∃ a, first = .ok a ∧ f a = b := by
  cases first with
  | error error => simp [Except.map]
  | ok a => simp [Except.map]

theorem except_map_error {ε α β : Type} {first : Except ε α} {f : α → β} {error : ε} :
    first.map f = .error error ↔ first = .error error := by
  cases first <;> simp [Except.map]

theorem except_mem_toOption {ε α : Type} {e : Except ε α} {a : α} : a ∈ e.toOption ↔ e = .ok a := by
  cases e <;> simp [Except.toOption]

theorem except_mapError_ok {ε δ α : Type} {first : Except ε α} {f : ε → δ} {a : α} :
    first.mapError f = .ok a ↔ first = .ok a := by
  cases first <;> simp [Except.mapError]

theorem except_mapError_error {ε δ α : Type} {first : Except ε α} {f : ε → δ} {error : δ} :
    first.mapError f = .error error ↔ ∃ other, first = .error other ∧ f other = error := by
  cases first <;> simp [Except.mapError]

theorem except_of_isOk {ε α : Type} {e : Except ε α} (fine : e.isOk = true) : ∃ a, e = .ok a := by
  cases e with
  | error error => cases fine
  | ok a => exact ⟨a,rfl⟩

theorem except_mapM_ok {ε α β : Type} {f : α → Except ε β} {items : List α} {results : List β}
    (mapped : items.mapM f = .ok results) :
    (∀ a ∈ items, ∃ b ∈ results, f a = .ok b) ∧ ∀ b ∈ results, ∃ a ∈ items, f a = .ok b := by
  induction items generalizing results with
  | nil =>
    cases mapped
    simp
  | cons a rest ih =>
    rw [List.mapM_cons] at mapped
    obtain ⟨b,first,mapped⟩ := except_bind_ok.mp mapped
    obtain ⟨others,later,ended⟩ := except_bind_ok.mp mapped
    cases ended
    obtain ⟨into,onto⟩ := ih later
    refine ⟨?_,?_⟩
    · refine List.forall_mem_cons.mpr ⟨⟨b,List.mem_cons_self,first⟩,fun item member => ?_⟩
      obtain ⟨image,inside,done⟩ := into item member
      exact ⟨image,List.mem_cons_of_mem _ inside,done⟩
    · refine List.forall_mem_cons.mpr ⟨⟨a,List.mem_cons_self,first⟩,fun image member => ?_⟩
      obtain ⟨item,inside,done⟩ := onto image member
      exact ⟨item,List.mem_cons_of_mem _ inside,done⟩

theorem except_mapM_total {ε α β : Type} {f : α → Except ε β} {items : List α}
    (each : ∀ a ∈ items, ∃ b, f a = .ok b) : ∃ results, items.mapM f = .ok results := by
  induction items with
  | nil => exact ⟨[],rfl⟩
  | cons a rest ih =>
    obtain ⟨⟨b,first⟩,others⟩ := List.forall_mem_cons.mp each
    obtain ⟨results,later⟩ := ih others
    exact ⟨b :: results,by rw [List.mapM_cons,first,except_ok_bind,later]; rfl⟩

theorem except_mapM_map {ε α β : Type} {f : α → Except ε β} {g : α → β} {items : List α}
    (each : ∀ a ∈ items, f a = .ok (g a)) : items.mapM f = .ok (items.map g) := by
  induction items with
  | nil => rfl
  | cons a rest ih =>
    obtain ⟨first,others⟩ := List.forall_mem_cons.mp each
    rw [List.mapM_cons,first,ih others]
    rfl

theorem except_mapM_choose {ε α β : Type} {f : α → Except ε β} (fallback : α → β) {items : List α}
    {results : List β} (mapped : items.mapM f = .ok results) :
    ∃ g : α → β, ∀ a ∈ items, f a = .ok (g a) := by
  refine ⟨fun a => (f a).toOption.getD (fallback a),fun a member => ?_⟩
  obtain ⟨b,_,made⟩ := (except_mapM_ok mapped).1 a member
  simp [made,Except.toOption]

theorem except_foldlM_error_iff {ε α β : Type} {f : β → α → Except ε β} {items : List α} {start : β}
    {error : ε} : items.foldlM f start = .error error ↔
      ∃ before a after b, items = before ++ a :: after ∧ before.foldlM f start = .ok b ∧
        f b a = .error error := by
  constructor
  · intro failed
    induction items generalizing start with
    | nil => cases failed
    | cons a rest ih =>
      rw [List.foldlM_cons,except_bind_error] at failed
      rcases failed with first | ⟨b,ran,later⟩
      · exact ⟨[],a,rest,start,rfl,rfl,first⟩
      · obtain ⟨before,item,after,c,rfl,reached,stopped⟩ := ih later
        refine ⟨a :: before,item,after,c,rfl,?_,stopped⟩
        rw [List.foldlM_cons,ran]
        exact reached
  · rintro ⟨before,a,after,b,rfl,reached,stopped⟩
    rw [List.foldlM_append,reached,except_ok_bind,List.foldlM_cons,stopped]
    rfl

theorem except_foldlM_error {ε α β : Type} {f : β → α → Except ε β} {items : List α} {start : β}
    {error : ε} (failed : items.foldlM f start = .error error) :
    ∃ a ∈ items, ∃ b, f b a = .error error := by
  obtain ⟨before,a,after,b,rfl,_,stopped⟩ := except_foldlM_error_iff.mp failed
  exact ⟨a,by simp,b,stopped⟩

namespace Outcome
variable {σ τ ι : Type}

def result : Outcome σ → Except Fault σ
  | done s => .ok s
  | stopped fault _ => .error fault

@[simp]
theorem result_done (s : σ) : (done s).result = .ok s := rfl

@[simp]
theorem result_stopped (fault : Fault) (s : σ) : (stopped fault s).result = .error fault := rfl

@[simp]
theorem result_map (f : σ → τ) (o : Outcome σ) : (o.map f).result = o.result.map f := by
  cases o <;> rfl

@[simp]
theorem result_andThen (first : Outcome σ) (next : σ → Outcome σ) :
    (first.andThen next).result = first.result >>= fun s => (next s).result := by
  cases first <;> rfl

@[simp]
theorem result_attempt (s : σ) (e : Except Fault σ) : (attempt s e).result = e := by
  cases e <;> rfl

theorem result_each (action : ι → σ → Outcome σ) (items : List ι) (s : σ) :
    (each action items s).result = items.foldlM (fun s item => (action item s).result) s := by
  induction items generalizing s with
  | nil => rfl
  | cons item rest ih =>
    rw [each,List.foldlM_cons]
    cases ran : action item s with
    | done next => exact ih next
    | stopped fault next => rfl

theorem result_eq_ok {o : Outcome σ} {s : σ} : o.result = .ok s ↔ o = .done s := by
  cases o <;> simp [result]

theorem result_eq_error {o : Outcome σ} {fault : Fault} :
    o.result = .error fault ↔ ∃ s, o = .stopped fault s := by
  cases o <;> simp [result,eq_comm]

end Outcome

namespace Part

/-- What a part does in a phase: nothing, where it does not take part. -/
def act (hw : Registry) (phase : Phase) (cycle : Nat) (part : Part) (signals : Signals) :
    Except Fault (Part × Signals) :=
  if part.participates phase then (part.react hw phase cycle signals).result
  else .ok (part,signals)

theorem reactAll_nil (hw : Registry) (phase : Phase) (cycle : Nat) (signals : Signals) :
    (reactAll hw phase cycle [] signals).result = .ok ([],signals) := rfl

theorem reactAll_cons (hw : Registry) (phase : Phase) (cycle : Nat) (part : Part)
    (rest : List Part) (signals : Signals) :
    (reactAll hw phase cycle (part :: rest) signals).result =
      part.act hw phase cycle signals >>= fun acted =>
        (reactAll hw phase cycle rest acted.2).result >>= fun others =>
          .ok (acted.1 :: others.1,others.2) := by
  rw [reactAll,act]
  split
  · cases part.react hw phase cycle signals with
    | done acted =>
      rw [Outcome.result_map]
      change _ = (reactAll hw phase cycle rest acted.2).result >>= _
      generalize (reactAll hw phase cycle rest acted.2).result = others
      cases others <;> rfl
    | stopped fault acted => rfl
  · rw [Outcome.result_map]
    change _ = (reactAll hw phase cycle rest signals).result >>= _
    generalize (reactAll hw phase cycle rest signals).result = others
    cases others <;> rfl

end Part
end Microprogram
