import MethodEdit.Proofs.Injection.StackTypes

/-!
A call that replaces an instruction keeps the contract of that instruction with the stack. The
procedure takes what the instruction took, finds the loads for its further parameters on top, and
leaves a value that can stand in for what the instruction left.
-/
namespace MethodEdit

variable {g : Graph}

def Graph.Describes (g : Graph) (t : Ty) : Prop := g.type? t.name = some t

theorem Graph.Describes.eq_of_beq {a b : Ty} (ha : g.Describes a) (hb : g.Describes b)
    (h : (a == b) = true) : a = b := by
  unfold Describes at ha hb
  rw [Ty.beq_iff.1 h, hb] at ha
  exact (Option.some.inj ha).symm

theorem Ty.beq_of_assignable {target source : Ty} (h : assignable target source = true)
    (hs : source.isReference = false) : (source == target) = true := by
  unfold assignable at h
  split at h
  · assumption
  · simp [hs] at h

theorem Ty.isVoid_of_element {t pointee : Ty} (h : t.element = some pointee) :
    t.isVoid = false := by
  cases t with
  | named => cases h
  | byRef => rfl

/-- A formal takes the instance that it accepts. -/
theorem Ty.takes_of_fitStack {formal owner : Ty} {pointer : Bool} {fit : Fit}
    (ho : g.Describes owner) (hf : g.Describes formal)
    (h : formal.fitStack owner pointer = .ok fit) : formal.takes (owner.loaded pointer) = true := by
  unfold fitStack at h
  unfold takes loaded
  split at h
  · cases h
  · cases h
  · rename_i wanted hformal
    split at h
    · rename_i heq
      rw [hformal, if_pos rfl]
      exact heq
    · cases h
  · rename_i hformal
    unfold fitPlain at h
    split at h
    · rename_i ha
      rw [hformal, if_neg (by simp)]
      cases howner : owner.element with
      | none => exact ha
      | some pointee =>
        -- a pointer fits itself only, and the formal is none
        have hplain : owner.isReference = false := by simp [isReference, isByRef, howner]
        have hsame := ho.eq_of_beq hf (beq_of_assignable ha hplain)
        rw [hsame, hformal] at howner
        cases howner
    · cases h

structure Parameter.Matches (formal p : Parameter) : Prop where
  name : formal.name = p.name
  type : (formal.type == p.type) = true

namespace Effect

variable {e : Effect} {procedure : Method}

/-- The formals for the instance: one that accepts it, or none if there is no instance. -/
def Receives (e : Effect) (formals : List Parameter) : Prop :=
  match e.instance? with
  | none => formals = []
  | some (owner, pointer) =>
    ∃ formal fit, formals = [formal] ∧ formal.type.fitStack owner pointer = .ok fit

/-- What can be used in place of the value that the instruction leaves, and nothing if it leaves
none. -/
def Leaves (e : Effect) (result : List Ty) : Prop :=
  match e.value? with
  | none => result = []
  | some (value, false) => ∃ type, result = [type] ∧ Ty.assignable value type = true
  | some (value, true) =>
    ∃ type pointee, result = [type] ∧ type.element = some pointee ∧ (pointee == value) = true

/-- The type that the instruction expects below those of its parameters: the one that declares the
member, or the one of its address. -/
def instanceTypes (e : Effect) : List Ty :=
  (e.instance?.map fun (owner, pointer) => owner.loaded pointer).toList

/-- Types that the instruction takes off the stack, the one on top last. Values for the parameters
may be of any type that the parameters take. -/
def Consumes (e : Effect) (actuals : List Ty) : Prop :=
  ∃ values, actuals = e.instanceTypes ++ values ∧ TakeAll (e.parameters.map (·.type)) values

structure DescribedBy (e : Effect) (g : Graph) : Prop where
  owner : ∀ owner pointer, e.instance? = some (owner, pointer) → g.Describes owner
  parameters : ∀ p ∈ e.parameters, g.Describes p.type

theorem leaves_of_checkReturn (h : e.checkReturn procedure = .ok ()) :
    e.Leaves (if procedure.returnsVoid then [] else [procedure.returns]) := by
  unfold checkReturn at h
  unfold Leaves
  split at h
  · rename_i hv
    split at h
    · rename_i hvoid
      simp [hv, hvoid]
    · cases h
  · rename_i value hv
    split at h
    · rename_i hany
      obtain ⟨pointee, hp, heq⟩ := Option.any_eq_true _ _ |>.1 hany
      have hvoid : procedure.returnsVoid = false := Ty.isVoid_of_element hp
      simp [hv, hvoid, hp, heq]
    · cases h
  · rename_i value hv
    split at h
    · rename_i hc
      simp only [Bool.and_eq_true, Bool.not_eq_true'] at hc
      simp [hv, hc]
    · cases h

theorem receives_of_checkInstance {formals : List Parameter}
    (h : e.checkInstance procedure = .ok formals) :
    ∃ receiver, procedure.parameters = receiver ++ formals ∧ e.Receives receiver := by
  unfold checkInstance at h
  unfold Receives
  split at h
  · rename_i hi
    cases h
    exact ⟨[], rfl, by rw [hi]⟩
  · cases h
  · rename_i owner pointer formal rest hi hparams
    split at h
    · cases h
    · split at h
      · rename_i fit hfit
        cases h
        refine ⟨[formal], hparams, ?_⟩
        rw [hi]
        exact ⟨formal, fit, rfl, hfit⟩
      · cases h

/-- The formals begin with one for each parameter, in the order of the parameters. -/
theorem matches_of_checkParameters {numbered : List (Parameter × Nat)}
    {formals extra : List Parameter} (h : checkParameters procedure numbered formals = .ok extra) :
    ∃ same, formals = same ++ extra ∧
      List.Forall₂ Parameter.Matches same (numbered.map (·.1)) := by
  induction numbered generalizing formals with
  | nil =>
    cases h
    exact ⟨[], rfl, .nil⟩
  | cons first more ih =>
    obtain ⟨p, i⟩ := first
    cases formals with
    | nil => cases h
    | cons formal rest =>
      unfold checkParameters at h
      split at h
      · cases h
      · rename_i hsame
        have hname : formal.name = p.name := by simp_all
        have htype : (formal.type == p.type) = true := by simp_all [bne]
        obtain ⟨same, heq, hall⟩ := ih h
        exact ⟨formal :: same, by rw [heq]; rfl, .cons ⟨hname, htype⟩ hall⟩

theorem extraFormals_eq_ok {extra : List Parameter} (h : e.extraFormals procedure = .ok extra) :
    ∃ receiver same, procedure.parameters = receiver ++ same ++ extra ∧ e.Receives receiver ∧
      List.Forall₂ Parameter.Matches same e.parameters ∧
      e.Leaves (if procedure.returnsVoid then [] else [procedure.returns]) := by
  simp only [extraFormals, bind_eq_ok_iff] at h
  obtain ⟨_, hreturn, formals, hinstance, hparams⟩ := h
  obtain ⟨receiver, hall, hreceives⟩ := receives_of_checkInstance hinstance
  obtain ⟨same, hformals, hmatches⟩ := matches_of_checkParameters hparams
  rw [List.zipIdx_map_fst] at hmatches
  rw [hformals, ← List.append_assoc] at hall
  exact ⟨receiver, same, hall, hreceives, hmatches, leaves_of_checkReturn hreturn⟩

theorem Receives.takeAll {receiver : List Parameter} (h : e.Receives receiver)
    (he : e.DescribedBy g) (hr : ∀ p ∈ receiver, g.Describes p.type) :
    TakeAll (receiver.map (·.type)) e.instanceTypes := by
  unfold Receives at h
  unfold instanceTypes
  cases hi : e.instance? with
  | none =>
    rw [hi] at h
    rw [h]
    exact .nil
  | some passed =>
    obtain ⟨owner, pointer⟩ := passed
    rw [hi] at h
    obtain ⟨formal, fit, rfl, hfit⟩ := h
    have howner := he.owner owner pointer hi
    have hformal := hr formal (List.mem_singleton_self formal)
    exact .cons (Ty.takes_of_fitStack howner hformal hfit) .nil

theorem types_of_matches {same parameters : List Parameter}
    (h : List.Forall₂ Parameter.Matches same parameters) (hs : ∀ p ∈ same, g.Describes p.type)
    (hp : ∀ p ∈ parameters, g.Describes p.type) :
    same.map (·.type) = parameters.map (·.type) := by
  induction h with
  | nil => rfl
  | cons hm _ ih =>
    obtain ⟨hs, hsame⟩ := List.forall_mem_cons.1 hs
    obtain ⟨hp, hparameters⟩ := List.forall_mem_cons.1 hp
    rw [List.map_cons, List.map_cons, hs.eq_of_beq hp hm.type, ih hsame hparameters]

theorem Consumes.takeAll {actuals : List Ty} (h : e.Consumes actuals) (he : e.DescribedBy g)
    {receiver same : List Parameter} (hr : e.Receives receiver)
    (hm : List.Forall₂ Parameter.Matches same e.parameters)
    (hg : ∀ p ∈ receiver ++ same, g.Describes p.type) :
    TakeAll ((receiver ++ same).map (·.type)) actuals := by
  obtain ⟨values, rfl, hvalues⟩ := h
  obtain ⟨hreceiver, hsame⟩ := List.forall_mem_append.1 hg
  rw [List.map_append, types_of_matches hm hsame he.parameters]
  exact List.rel_append (hr.takeAll he hreceiver) hvalues

end Effect

namespace Session

open Edit

variable {s s' : Session}

theorem isStatic_of_replaceCall (procedure : Method) (s : Session) :
    Yields (replaceCall procedure) s fun _ _ => procedure.isStatic = true :=
  checkStatic_yields fun hstatic => .mono .trivial fun _ _ _ => hstatic

/-- A call keeps the contract of the instruction that it replaces. The formals of the procedure are
one for the instance, if there is one, then those of the member, by name and type and in order, and
then those that are loaded, each by an instruction of its own. The new code runs on every stack on
which the instruction finds what it takes, and puts what can be used in its place where the
instruction puts its value. Types are compared by name, so for this all of them have to come from
one graph. -/
theorem stack_contract_of_reachable (h : s.Reachable) (hp : s.method.parameters.length ≤ 65535)
    {procedure : Method} (hrun : replaceCall procedure s = (.ok (), s'))
    (hn : s'.symbols.slots.length ≤ 65536) :
    ∃ effect receiver same extra loads result, s.currentEffect = .ok effect ∧
      procedure.parameters = receiver ++ same ++ extra ∧
      effect.Receives receiver ∧
      List.Forall₂ Parameter.Matches same effect.parameters ∧
      List.Forall₂ (Feeds s') extra loads ∧
      (∀ n i, (loads ++ [.call procedure])[n]? = some i →
        ∃ j, s'.code[s.cursor + n]? = some j ∧ j.opcode = i.opcode ∧ j.operand = i.operand) ∧
      effect.Leaves result ∧
      ∀ g : Graph, effect.DescribedBy g → (∀ p ∈ procedure.parameters, g.Describes p.type) →
        ∀ actuals stack, effect.Consumes actuals →
          s'.execAll (loads ++ [.call procedure]) (actuals.reverse ++ stack) =
            some (result ++ stack) := by
  have hedits := (whole_replaceCall procedure).moves s
  rw [hrun] at hedits
  have hstatic := isStatic_of_replaceCall procedure s _ _ hrun
  obtain ⟨effect, extra, loads, he, hx, hb, hreplaces⟩ :=
    replaceCall_yields h.sound procedure _ _ hrun
  obtain ⟨receiver, same, hparams, hreceives, hmatches, hleaves⟩ := Effect.extraFormals_eq_ok hx
  have hfeeds := hb.imp fun _ _ hb =>
    hb.feeds (h.sound.edits hedits).synced.regular (hedits.method ▸ hp) hn
  refine ⟨effect, receiver, same, extra, loads, _, he, hparams, hreceives, hmatches, hfeeds,
    fun n i => hreplaces.getElem? h.sound.inside, hleaves, ?_⟩
  intro g hg hformals actuals stack hconsumes
  have htaken := hconsumes.takeAll hg hreceives hmatches fun p hp =>
    hformals p (by rw [hparams]; exact List.mem_append_left _ hp)
  have hcall := execAll_call hstatic hparams htaken hfeeds stack
  rw [hcall]
  split <;> rfl

namespace Sample

def point : Ty := .named "Point" .valueType none []

def scale : Method where
  owner := point
  name := ⟨"Scale", by decide⟩
  parameters := [{ name := ⟨"factor", by decide⟩, type := int32 }]
  returns := int32
  flags := ⟨0x0006⟩

def scaleBy : Method where
  owner := object
  name := ⟨"ScaleBy", by decide⟩
  parameters :=
    [{ name := ⟨"self", by decide⟩, type := .pointerTo point },
      { name := ⟨"factor", by decide⟩, type := int32 }, count]
  returns := int32
  flags := .helper

def scaling : Session where
  code := [.call scale, .ret]
  symbols := Session.registerCode [.call scale, .ret] (Symbols.ofTypes [] (LabelSource.after []) {})
  method := method int32
  core := core
  settings := {}

theorem reachable_scaling : scaling.Reachable :=
  .start (show Session.startFresh (method int32) core [] [.call scale, .ret] {} = .ok scaling from
    rfl)

def graph : Graph where
  types := [object, int32, point, .pointerTo point]

end Sample

theorem stack_contract_of_scaling :
    ∃ s' loads, replaceCall Sample.scaleBy Sample.scaling = (.ok (), s') ∧
      ∃ result, Ty.assignable Sample.int32 result = true ∧ ∀ stack,
        s'.execAll (loads ++ [.call Sample.scaleBy])
          (Sample.int32 :: .pointerTo Sample.point :: stack) = some (result :: stack) := by
  obtain ⟨s', hrun, hn⟩ : ∃ s', replaceCall Sample.scaleBy Sample.scaling = (.ok (), s') ∧
      s'.symbols.slots.length ≤ 65536 := ⟨_, rfl, Nat.zero_le _⟩
  obtain ⟨effect, _, _, _, loads, result, heffect, _, _, _, _, _, hleaves, hexec⟩ :=
    stack_contract_of_reachable Sample.reachable_scaling (by decide) hrun hn
  cases heffect
  obtain ⟨type, rfl, htype⟩ := hleaves
  refine ⟨s', loads, hrun, type, htype, fun stack => ?_⟩
  refine hexec Sample.graph ⟨?_, ?_⟩ ?_ [.pointerTo Sample.point, Sample.int32] stack ?_
  · rintro owner pointer ⟨⟩
    rfl
  · intro p hp
    cases List.mem_singleton.1 hp
    rfl
  · intro p hp
    simp only [Sample.scaleBy, List.mem_cons, List.not_mem_nil, or_false] at hp
    obtain rfl | rfl | rfl := hp
    · rfl
    · rfl
    · rfl
  · exact ⟨[Sample.int32], rfl, .cons rfl .nil⟩

end Session

end MethodEdit
