import AgenticCircuit.Dialect.LinearValues

/-! # Linear values stay within their epoch

What `verifyLinearLiveness` guarantees for the runs of an accepted process.

* **`ProcessRegion.Live`** says of a region which linear values it uses before the first suspension
  after their production; `live_of_uses` reads it off the epochs.
* **`Fresh`** values were produced after the last suspension.  The invariant `LinearInvariant`
  keeps every linear value that the running region and its frames count on fresh.
* **`linear_values_fresh`**: a linear operand was produced after the last suspension, in every
  run that takes no branch the analysis skips and makes no further pass over the body, or over a
  region of a loop after a suspension in the loop, if it uses linear values from outside.
* **`accepted_reuses_token`**: accepted processes that do use a token after a suspension. -/

namespace AgenticCircuit.Dialect

open List Bool Set
open ProcessRegion

/-- No linear value is used in a later epoch than it is defined in. -/
def NeverLater (typeOf : ν → ValueType) (definitions uses : List (ν × ℕ)) : Prop :=
  ∀ definition ∈ definitions, isLinearAcrossSuspension (typeOf definition.1) = true →
    ∀ operand ∈ uses, operand.1 = definition.1 → operand.2 ≤ definition.2

theorem NeverLater.mono {definitions definitions' uses uses' : List (ν × ℕ)}
    (h : NeverLater typeOf definitions uses) (hdefinitions : definitions' ⊆ definitions)
    (huses : uses' ⊆ uses) : NeverLater typeOf definitions' uses' :=
  fun d hd hlinear u hu => h d (hdefinitions hd) hlinear u (huses hu)

variable {ν : Type} [DecidableEq ν] (typeOf : ν → ValueType)
variable {region : ProcessRegion ν} {sources : List ν}

/-- The values are of linear types only if they are among the given ones. -/
def LinearsAmong (operands : List ν) (values : Set ν) : Prop :=
  ∀ x ∈ operands, isLinearAcrossSuspension (typeOf x) = true → x ∈ values

/-- The linear values used in a region, in reachable blocks, come from the region or are among
its arguments. -/
def ProcessRegion.ownsLinears (arguments : List ν) (region : ProcessRegion ν) : Bool :=
  region.usesWithin (fun x => isLinearAcrossSuspension (typeOf x)) arguments

/-- What remains fresh of a set of values after an operation. -/
def kept (mayOp : Bool) (fresh : Set ν) : Set ν := {x | x ∈ fresh ∧ mayOp = false}

omit [DecidableEq ν] in
@[simp] theorem mem_kept {mayOp : Bool} {fresh : Set ν} {x : ν} :
    x ∈ kept mayOp fresh ↔ x ∈ fresh ∧ mayOp = false := Iff.rfl

/-- With the linear values `fresh` produced since the last suspension, the region uses no linear
value across a suspension, further passes over the regions of its loops apart, unless these use
their own linear values only. -/
def ProcessRegion.Live (fresh : Set ν) : ProcessRegion ν → Prop
  | .done operands => LinearsAmong typeOf operands fresh
  | .op operation operands results rest =>
    LinearsAmong typeOf operands fresh ∧
      rest.Live ({x | x ∈ results} ∪ kept (isSuspension operation) fresh)
  | .ifOp condition operand thenRegion _ elseRegion results rest =>
    LinearsAmong typeOf [operand] fresh ∧
      (thenReachable condition = true →
        sameTypes typeOf thenRegion.terminator results = true ∧ thenRegion.Live fresh) ∧
      (elseReachable condition = true →
        sameTypes typeOf elseRegion.terminator results = true ∧ elseRegion.Live fresh) ∧
      rest.Live ({x | x ∈ results} ∪ kept (thenReachable condition && thenRegion.maySuspend ||
        elseReachable condition && elseRegion.maySuspend) fresh)
  | .forOp _ _ _ operands arguments body results rest =>
    LinearsAmong typeOf operands fresh ∧
      (sameTypes typeOf (operands.drop 3) results = true ∧
        sameTypes typeOf (arguments.drop 1) results = true ∧
        sameTypes typeOf body.terminator results = true) ∧
      body.Live ({x | x ∈ arguments} ∪ fresh) ∧
      (body.ownsLinears typeOf arguments = true → body.Live {x | x ∈ arguments}) ∧
      rest.Live ({x | x ∈ results} ∪ kept body.maySuspend fresh)
  | .whileOp _ operands beforeArguments before afterArguments after results rest =>
    LinearsAmong typeOf operands fresh ∧
      (sameTypes typeOf operands beforeArguments = true ∧
        sameTypes typeOf (before.terminator.drop 1) results = true ∧
        sameTypes typeOf afterArguments results = true ∧
        sameTypes typeOf after.terminator beforeArguments = true) ∧
      (before.Live ({x | x ∈ beforeArguments} ∪ fresh) ∧
        (before.ownsLinears typeOf beforeArguments = true →
          before.Live {x | x ∈ beforeArguments})) ∧
      (after.Live ({x | x ∈ afterArguments} ∪ fresh) ∧
        (after.ownsLinears typeOf afterArguments = true →
          after.Live {x | x ∈ afterArguments})) ∧
      rest.Live ({x | x ∈ results} ∪ kept (before.maySuspend || after.maySuspend) fresh)
  | .instrumentation body rest =>
    sameTypes typeOf body.terminator [] = true ∧ body.Live fresh ∧
      rest.Live ({x | x ∈ ([] : List ν)} ∪ kept body.maySuspend fresh)

section sets

variable {typeOf} {operands : List ν} {values values' : Set ν}

omit [DecidableEq ν] in
theorem LinearsAmong.mono (h : LinearsAmong typeOf operands values) (hsub : values ⊆ values') :
    LinearsAmong typeOf operands values' := fun x hx hlinear => hsub (h x hx hlinear)

omit [DecidableEq ν] in
theorem kept_mono (mayOp : Bool) (hsub : values ⊆ values') :
    kept mayOp values ⊆ kept mayOp values' := fun _ hx => ⟨hsub hx.1, hx.2⟩

end sets

variable {typeOf} {visible : List (ν × ℕ)} {epoch : ℕ}

theorem ProcessRegion.Live.mono : ∀ {fresh fresh' : Set ν},
    region.Live typeOf fresh → fresh ⊆ fresh' → region.Live typeOf fresh' := by
  induction region with
  | done operands =>
    intro fresh fresh' h hsub
    exact LinearsAmong.mono h hsub
  | op operation operands results rest ih =>
    intro fresh fresh' ⟨hoperands, hrest⟩ hsub
    exact ⟨hoperands.mono hsub, ih hrest (union_subset_union_right _ (kept_mono _ hsub))⟩
  | ifOp condition operand thenRegion hasElse elseRegion results rest ihthen ihelse ih =>
    intro fresh fresh' ⟨hoperand, hthen, helse, hrest⟩ hsub
    exact ⟨hoperand.mono hsub, fun hr => ⟨(hthen hr).1, ihthen (hthen hr).2 hsub⟩,
      fun hr => ⟨(helse hr).1, ihelse (helse hr).2 hsub⟩,
      ih hrest (union_subset_union_right _ (kept_mono _ hsub))⟩
  | forOp lower upper step operands arguments body results rest ihbody ih =>
    intro fresh fresh' ⟨hoperands, htypes, hbody, hown, hrest⟩ hsub
    exact ⟨hoperands.mono hsub, htypes, ihbody hbody (union_subset_union_right _ hsub), hown,
      ih hrest (union_subset_union_right _ (kept_mono _ hsub))⟩
  | whileOp condition operands beforeArguments before afterArguments after results rest ihbefore
      ihafter ih =>
    intro fresh fresh' ⟨hoperands, htypes, hbefore, hafter, hrest⟩ hsub
    exact ⟨hoperands.mono hsub, htypes,
      ⟨ihbefore hbefore.1 (union_subset_union_right _ hsub), hbefore.2⟩,
      ⟨ihafter hafter.1 (union_subset_union_right _ hsub), hafter.2⟩,
      ih hrest (union_subset_union_right _ (kept_mono _ hsub))⟩
  | instrumentation body rest ihbody ih =>
    intro fresh fresh' ⟨hbody, hlive, hrest⟩ hsub
    exact ⟨hbody, ihbody hlive hsub, ih hrest (union_subset_union_right _ (kept_mono _ hsub))⟩

/-! ### Regions that pass the check -/

/-- The names among `own` that a visible definition of the present epoch gives. -/
def freshNames (own : List ν) (visible : List (ν × ℕ)) (epoch : ℕ) : Set ν :=
  {x | x ∈ own ∧ ∃ definition ∈ visible, definition.1 = x ∧ epoch ≤ definition.2}

section freshNames

omit [DecidableEq ν]

variable {own : List ν} {visible : List (ν × ℕ)} {epoch : ℕ}

theorem freshNames_next (hvisible : ∀ definition ∈ visible, definition.2 ≤ epoch)
    (results : List ν) (mayOp : Bool) :
    freshNames (results ++ own) (results.map (·, nextEpoch epoch mayOp) ++ visible)
        (nextEpoch epoch mayOp) ⊆
      {x | x ∈ results} ∪ kept mayOp (freshNames own visible epoch) := by
  rintro x ⟨hown, definition, hdefinition, rfl, hepoch⟩
  rcases mem_append.mp hdefinition with hresult | hold
  · obtain ⟨y, hy, rfl⟩ := mem_map.mp hresult
    exact Or.inl hy
  · rcases mem_append.mp hown with hresult | hown
    · exact Or.inl hresult
    · have hle := hvisible definition hold
      have hmay : mayOp = false := by
        cases mayOp with
        | false => rfl
        | true => simp only [nextEpoch, if_true] at hepoch; omega
      subst hmay
      exact Or.inr ⟨⟨hown, definition, hold, rfl, by simpa [nextEpoch] using hepoch⟩, rfl⟩

theorem freshNames_arguments (hvisible : ∀ definition ∈ visible, definition.2 ≤ epoch)
    (arguments : List ν) :
    freshNames (arguments ++ own) (arguments.map (·, epoch) ++ visible) epoch ⊆
      {x | x ∈ arguments} ∪ freshNames own visible epoch := by
  intro x hx
  rcases freshNames_next hvisible arguments false hx with hargument | hkept
  · exact Or.inl hargument
  · exact Or.inr hkept.1

theorem freshNames_own (own : List ν) (visible : List (ν × ℕ)) (epoch : ℕ) :
    freshNames own visible epoch ⊆ {x | x ∈ own} := fun _ hx => hx.1

theorem visible_next (hvisible : ∀ definition ∈ visible, definition.2 ≤ epoch)
    (results : List ν) (mayOp : Bool) :
    ∀ definition ∈ results.map (·, nextEpoch epoch mayOp) ++ visible,
      definition.2 ≤ nextEpoch epoch mayOp := by
  intro definition hdefinition
  rcases mem_append.mp hdefinition with hresult | hold
  · obtain ⟨y, -, rfl⟩ := mem_map.mp hresult
    exact le_rfl
  · have hle := hvisible definition hold
    unfold nextEpoch
    omega

end freshNames

/-- A region as the check leaves it: `visible` are the definitions in scope, and the linear
values it uses are among `own` if they come from outside. -/
structure EpochChecked (typeOf : ν → ValueType) (own : List ν) (visible : List (ν × ℕ)) (epoch : ℕ)
    (region : ProcessRegion ν) : Prop where
  wellTyped : region.wellTyped typeOf = true
  dominated : region.usesWithin (fun _ => true) (visible.map Prod.fst) = true
  owned : region.ownsLinears typeOf own = true
  visible_le : ∀ definition ∈ visible, definition.2 ≤ epoch
  neverLater : NeverLater typeOf (visible ++ region.definitions epoch) (region.uses epoch)

theorem linearsAmong_freshNames {operands own : List ν}
    (hdominated : operands.all (fun x => !true || decide (x ∈ visible.map Prod.fst)) = true)
    (howned : operands.all
      (fun x => !isLinearAcrossSuspension (typeOf x) || decide (x ∈ own)) = true)
    (hlater : NeverLater typeOf visible (operands.map (·, epoch))) :
    LinearsAmong typeOf operands (freshNames own visible epoch) := by
  intro x hx hlinear
  have hscope : x ∈ visible.map Prod.fst := by simpa using all_eq_true.mp hdominated x hx
  have hx_own : x ∈ own := by simpa [hlinear] using all_eq_true.mp howned x hx
  obtain ⟨definition, hdefinition, rfl⟩ := mem_map.mp hscope
  exact ⟨hx_own, definition, hdefinition, rfl,
    hlater definition hdefinition hlinear _ (mem_map_of_mem hx) rfl⟩

/-- A region that begins after an operation, in the scope of its results. -/
theorem epochChecked_next {own : List ν}
    (results : List ν) (mayOp : Bool) (hwell : region.wellTyped typeOf = true)
    (hdominated : region.usesWithin (fun _ => true) (results ++ visible.map Prod.fst) = true)
    (howned : region.ownsLinears typeOf (results ++ own) = true)
    (hvisible : ∀ definition ∈ visible, definition.2 ≤ epoch)
    (hlater : NeverLater typeOf (visible ++ (results.map (·, nextEpoch epoch mayOp) ++
      region.definitions (nextEpoch epoch mayOp))) (region.uses (nextEpoch epoch mayOp))) :
    EpochChecked typeOf (results ++ own) (results.map (·, nextEpoch epoch mayOp) ++ visible)
      (nextEpoch epoch mayOp) region where
  wellTyped := hwell
  dominated := by simpa [Function.comp_def] using hdominated
  owned := howned
  visible_le := visible_next hvisible results mayOp
  neverLater := hlater.mono (by intro d; simp only [mem_append]; tauto) (List.Subset.refl _)

/-- A region of a loop: in its first pass the values from outside are as fresh as before the loop;
with its own linear values only it needs none of them. -/
theorem live_arguments {own arguments : List ν}
    (ih : ∀ {own : List ν} {visible : List (ν × ℕ)} {epoch : ℕ},
      EpochChecked typeOf own visible epoch region →
      region.Live typeOf (freshNames own visible epoch)) (hwell : region.wellTyped typeOf = true)
    (hdominated : region.usesWithin (fun _ => true) (arguments ++ visible.map Prod.fst) = true)
    (howned : region.ownsLinears typeOf (arguments ++ own) = true)
    (hvisible : ∀ definition ∈ visible, definition.2 ≤ epoch)
    (hlater : NeverLater typeOf (visible ++ (arguments.map (·, epoch) ++
      region.definitions epoch)) (region.uses epoch)) :
    region.Live typeOf ({x | x ∈ arguments} ∪ freshNames own visible epoch) ∧
      (region.ownsLinears typeOf arguments = true → region.Live typeOf {x | x ∈ arguments}) := by
  constructor
  · exact Live.mono (ih (epochChecked_next arguments false hwell hdominated howned hvisible hlater))
      (freshNames_arguments hvisible _)
  · intro hown
    have hchecked : EpochChecked typeOf arguments (arguments.map (·, epoch) ++ visible) epoch region := by
      have hown' : region.ownsLinears typeOf (arguments ++ []) = true := by simpa using hown
      simpa [nextEpoch] using epochChecked_next arguments false hwell hdominated hown' hvisible hlater
    exact Live.mono (ih hchecked) (freshNames_own _ _ _)

theorem EpochChecked.live : ∀ {own : List ν} {visible : List (ν × ℕ)}
    {epoch : ℕ}, EpochChecked typeOf own visible epoch region →
    region.Live typeOf (freshNames own visible epoch) := by
  induction region with
    (intro own visible epoch ⟨hwell, hdominated, howned, hvisible, hlater⟩
     simp only [ProcessRegion.wellTyped, and_eq_true] at hwell
     simp only [ownsLinears, usesWithin, and_eq_true] at hdominated howned
     simp only [definitions, uses] at hlater)
  | done operands =>
    exact linearsAmong_freshNames hdominated howned (by simpa [definitions, uses] using hlater)
  | op operation operands results rest ih =>
    exact ⟨linearsAmong_freshNames hdominated.1 howned.1 (hlater.mono (by grind) (by grind)),
      Live.mono (ih (epochChecked_next results _ hwell hdominated.2 howned.2 hvisible
        (hlater.mono (by grind) (by grind)))) (freshNames_next hvisible _ _)⟩
  | ifOp condition operand thenRegion hasElse elseRegion results rest ihthen ihelse ih =>
    obtain ⟨⟨⟨⟨htypesThen, htypesElse⟩, hwellThen⟩, hwellElse⟩, hwellRest⟩ := hwell
    obtain ⟨⟨⟨hdOperand, hdThen⟩, hdElse⟩, hdRest⟩ := hdominated
    obtain ⟨⟨⟨hoOperand, hoThen⟩, hoElse⟩, hoRest⟩ := howned
    refine ⟨?_, ?_, ?_, ?_⟩
    · exact linearsAmong_freshNames (by simpa using hdOperand) (by simpa using hoOperand)
        (hlater.mono (by grind) (by grind))
    · intro hr
      simp only [hr] at hdThen hoThen hlater
      exact ⟨htypesThen, ihthen ⟨hwellThen, hdThen, hoThen, hvisible,
        hlater.mono (by grind) (by grind)⟩⟩
    · intro hr
      simp only [hr] at hdElse hoElse hlater
      exact ⟨htypesElse, ihelse ⟨hwellElse, hdElse, hoElse, hvisible,
        hlater.mono (by grind) (by grind)⟩⟩
    · exact Live.mono (ih (epochChecked_next results _ hwellRest hdRest hoRest hvisible
        (hlater.mono (by grind) (by grind)))) (freshNames_next hvisible _ _)
  | forOp lower upper step operands arguments body results rest ihbody ih =>
    obtain ⟨⟨⟨⟨htypes₁, htypes₂⟩, htypes₃⟩, hwellBody⟩, hwellRest⟩ := hwell
    obtain ⟨⟨hdOperands, hdBody⟩, hdRest⟩ := hdominated
    obtain ⟨⟨hoOperands, hoBody⟩, hoRest⟩ := howned
    have hbody := live_arguments ihbody hwellBody hdBody hoBody hvisible
      (hlater.mono (by grind) (by grind))
    refine ⟨linearsAmong_freshNames hdOperands hoOperands (hlater.mono (by grind) (by grind)),
      ⟨htypes₁, htypes₂, htypes₃⟩, hbody.1, hbody.2, ?_⟩
    · exact Live.mono (ih (epochChecked_next results _ hwellRest hdRest hoRest hvisible
        (hlater.mono (by grind) (by grind)))) (freshNames_next hvisible _ _)
  | whileOp condition operands beforeArguments before afterArguments after results rest ihbefore
      ihafter ih =>
    obtain ⟨⟨⟨htypes, hwellBefore⟩, hwellAfter⟩, hwellRest⟩ := hwell
    obtain ⟨⟨⟨hdOperands, hdBefore⟩, hdAfter⟩, hdRest⟩ := hdominated
    obtain ⟨⟨⟨hoOperands, hoBefore⟩, hoAfter⟩, hoRest⟩ := howned
    refine ⟨linearsAmong_freshNames hdOperands hoOperands (hlater.mono (by grind) (by grind)),
      ⟨htypes.1.1.1, htypes.1.1.2, htypes.1.2, htypes.2⟩, ?_, ?_, ?_⟩
    · exact live_arguments ihbefore hwellBefore hdBefore hoBefore hvisible
        (hlater.mono (by grind) (by grind))
    · exact live_arguments ihafter hwellAfter hdAfter hoAfter hvisible
        (hlater.mono (by grind) (by grind))
    · exact Live.mono (ih (epochChecked_next results _ hwellRest hdRest hoRest hvisible
        (hlater.mono (by grind) (by grind)))) (freshNames_next hvisible _ _)
  | instrumentation body rest ihbody ih =>
    obtain ⟨⟨htypes, hwellBody⟩, hwellRest⟩ := hwell
    obtain ⟨hdBody, hdRest⟩ := hdominated
    obtain ⟨hoBody, hoRest⟩ := howned
    refine ⟨?_, ihbody ⟨hwellBody, hdBody, hoBody, hvisible, hlater.mono (by grind) (by grind)⟩, ?_⟩
    · rw [List.isEmpty_iff.mp htypes]
      rfl
    · exact Live.mono (ih (epochChecked_next [] _ hwellRest hdRest hoRest hvisible
        (hlater.mono (by grind) (by grind)))) (freshNames_next hvisible _ _)

/-! ### Fresh values -/

/-- The linear values of a set were produced after the last suspension. -/
def Fresh (typeOf : ν → ValueType) (stamp : ν → ℕ) (clock : ℕ) (values : Set ν) : Prop :=
  ∀ x ∈ values, isLinearAcrossSuspension (typeOf x) = true → stamp x = clock

/-- No linear value gets older. -/
def Renews (typeOf : ν → ValueType) (stamp stamp' : ν → ℕ) (clock : ℕ) : Prop :=
  ∀ x, isLinearAcrossSuspension (typeOf x) = true → stamp x = clock → stamp' x = clock

section fresh

variable {stamp stamp' : ν → ℕ} {clock : ℕ} {values values' : Set ν}

omit [DecidableEq ν]

theorem Fresh.union (h : Fresh typeOf stamp clock values) (h' : Fresh typeOf stamp clock values') :
    Fresh typeOf stamp clock (values ∪ values') := by
  rintro x (hx | hx) hlinear
  · exact h x hx hlinear
  · exact h' x hx hlinear

theorem Fresh.renew (h : Fresh typeOf stamp clock values)
    (hrenews : Renews typeOf stamp stamp' clock) : Fresh typeOf stamp' clock values :=
  fun x hx hlinear => hrenews x hlinear (h x hx hlinear)

theorem Fresh.kept (mayOp : Bool) (h : Fresh typeOf stamp clock values) :
    Fresh typeOf stamp clock (kept mayOp values) := fun x hx => h x hx.1

theorem Renews.trans {stamp'' : ν → ℕ} (h : Renews typeOf stamp stamp' clock)
    (h' : Renews typeOf stamp' stamp'' clock) : Renews typeOf stamp stamp'' clock :=
  fun x hlinear hx => h' x hlinear (h x hlinear hx)

end fresh

section forwarding

variable {stamp : ν → ℕ} {clock : ℕ} {targets : List ν}

theorem fresh_produce (stamp : ν → ℕ) (produced : List ν) (clock : ℕ) :
    Fresh typeOf (produce stamp produced clock) clock {x | x ∈ produced} :=
  fun _ hx _ => if_pos hx

theorem renews_produce (stamp : ν → ℕ) (produced : List ν) (clock : ℕ) :
    Renews typeOf stamp (produce stamp produced clock) clock := by
  intro x _ hx
  unfold produce
  split
  · rfl
  · exact hx

theorem lookup_zip_sameTypes {x source : ν} : ∀ {targets sources : List ν},
    sameTypes typeOf sources targets = true → (targets.zip sources).lookup x = some source →
    source ∈ sources ∧ typeOf source = typeOf x
  | [], _, _, h | _ :: _, [], _, h => by simp at h
  | target :: targets, y :: sources, htypes, h => by
    simp only [sameTypes, map_cons, beq_iff_eq, List.cons.injEq] at htypes
    rw [zip_cons_cons, lookup_cons] at h
    by_cases hx : x = target
    · subst hx
      simp only [beq_self_eq_true, Option.some.injEq] at h
      subst h
      exact ⟨mem_cons_self, htypes.1⟩
    · simp only [beq_eq_false_iff_ne.mpr hx] at h
      obtain ⟨hmem, htype⟩ := lookup_zip_sameTypes (by simpa [sameTypes] using htypes.2) h
      exact ⟨mem_cons_of_mem _ hmem, htype⟩

theorem exists_lookup_zip {x : ν} : ∀ {targets sources : List ν},
    targets.length = sources.length → x ∈ targets →
    ∃ source, (targets.zip sources).lookup x = some source
  | target :: targets, y :: sources, hlength, hx => by
    rw [zip_cons_cons, lookup_cons]
    by_cases heq : x = target
    · exact ⟨y, by simp [heq]⟩
    · simp only [beq_eq_false_iff_ne.mpr heq]
      exact exists_lookup_zip (by simpa using hlength) ((mem_cons.mp hx).resolve_left heq)

theorem renews_forward (htypes : sameTypes typeOf sources targets = true)
    (hsources : Fresh typeOf stamp clock {x | x ∈ sources}) :
    Renews typeOf stamp (forward stamp targets sources) clock := by
  intro x hlinear hx
  unfold forward
  split
  · rename_i source hlookup
    obtain ⟨hmem, htype⟩ := lookup_zip_sameTypes htypes hlookup
    exact hsources source hmem (htype ▸ hlinear)
  · exact hx

theorem fresh_forward (htypes : sameTypes typeOf sources targets = true)
    (hsources : Fresh typeOf stamp clock {x | x ∈ sources}) :
    Fresh typeOf (forward stamp targets sources) clock {x | x ∈ targets} := by
  intro x hx hlinear
  have hlength : targets.length = sources.length := by
    have h := congrArg List.length (beq_iff_eq.mp htypes)
    simpa using h.symm
  obtain ⟨source, hlookup⟩ := exists_lookup_zip hlength hx
  obtain ⟨hmem, htype⟩ := lookup_zip_sameTypes htypes hlookup
  simpa [forward, hlookup] using hsources source hmem (htype ▸ hlinear)

omit [DecidableEq ν] in
theorem sameTypes_trans {xs ys zs : List ν} (h : sameTypes typeOf xs ys = true)
    (h' : sameTypes typeOf zs ys = true) : sameTypes typeOf xs zs = true := by
  unfold sameTypes at *
  rw [beq_iff_eq] at *
  rw [h, h']

end forwarding

/-! ### The invariant of a run -/

/-- An operation that is left behind can be resumed: the region after it counts on its results
and on values that are fresh, on none if a suspension may come before it ends. -/
def Resumes (typeOf : ν → ValueType) (stamp : ν → ℕ) (clock : ℕ) (may : Bool) (results : List ν)
    (rest : ProcessRegion ν) : Prop :=
  ∃ fresh : Set ν, rest.Live typeOf ({x | x ∈ results} ∪ fresh) ∧
    Fresh typeOf stamp clock fresh ∧ (may = true → fresh = ∅)

/-- A region of a loop can be passed once more, without a suspension since the loop was entered
or with its own linear values only. -/
def Repeats (typeOf : ν → ValueType) (stamp : ν → ℕ) (clock entered : ℕ) (arguments : List ν)
    (region : ProcessRegion ν) : Prop :=
  ∃ fresh : Set ν, region.Live typeOf ({x | x ∈ arguments} ∪ fresh) ∧
    (region.ownsLinears typeOf arguments = true → region.Live typeOf {x | x ∈ arguments}) ∧
    entered ≤ clock ∧ (entered = clock → Fresh typeOf stamp clock fresh)

/-- The loop of a frame. -/
structure WhileLoop.Backed (typeOf : ν → ValueType) (stamp : ν → ℕ) (clock entered : ℕ) (may : Bool)
    (loop : WhileLoop ν) : Prop where
  condition_types : sameTypes typeOf (loop.before.terminator.drop 1) loop.results = true
  after_types : sameTypes typeOf loop.afterArguments loop.results = true
  before_types : sameTypes typeOf loop.after.terminator loop.beforeArguments = true
  before : Repeats typeOf stamp clock entered loop.beforeArguments loop.before
  after : Repeats typeOf stamp clock entered loop.afterArguments loop.after
  rest : Resumes typeOf stamp clock (may || (loop.before.maySuspend || loop.after.maySuspend))
    loop.results loop.rest

/-- The frames around a region that ends in forwarding the values `forwarded`; `may` says
whether a suspension may come before it ends. -/
def Backed (typeOf : ν → ValueType) (stamp : ν → ℕ) (clock : ℕ) (forwarded : List ν) (may : Bool) :
    List (RegionFrame ν) → Prop
  | [] => True
  | .rest results rest :: frames =>
    sameTypes typeOf forwarded results = true ∧
      Resumes typeOf stamp clock may results rest ∧
      Backed typeOf stamp clock rest.terminator (may || rest.maySuspend) frames
  | .forBody entered _ arguments body results rest :: frames =>
    (sameTypes typeOf forwarded results = true ∧
      sameTypes typeOf body.terminator results = true ∧
      sameTypes typeOf (arguments.drop 1) results = true) ∧
      Repeats typeOf stamp clock entered arguments body ∧
      Resumes typeOf stamp clock (may || body.maySuspend) results rest ∧
      Backed typeOf stamp clock rest.terminator
        (may || (body.maySuspend || rest.maySuspend)) frames
  | .whileBefore entered loop :: frames =>
    sameTypes typeOf (forwarded.drop 1) loop.results = true ∧
      loop.Backed typeOf stamp clock entered may ∧
      Backed typeOf stamp clock loop.rest.terminator
        (may || (loop.before.maySuspend || loop.after.maySuspend || loop.rest.maySuspend)) frames
  | .whileAfter entered loop :: frames =>
    sameTypes typeOf forwarded loop.beforeArguments = true ∧
      loop.Backed typeOf stamp clock entered may ∧
      Backed typeOf stamp clock loop.rest.terminator
        (may || (loop.before.maySuspend || loop.after.maySuspend || loop.rest.maySuspend)) frames

/-- Every linear value that the running region or its frames count on is fresh. -/
def LinearInvariant (typeOf : ν → ValueType) (c : RegionConfig ν) : Prop :=
  ∃ fresh : Set ν, c.region.Live typeOf fresh ∧ Fresh typeOf c.stamp c.clock fresh ∧
    Backed typeOf c.stamp c.clock c.region.terminator c.region.maySuspend c.frames

/-- The stamps and the count may change: without a suspension no linear value gets older, and a
suspension comes only where one may come. -/
structure Passes (typeOf : ν → ValueType) (stamp : ν → ℕ) (clock : ℕ) (may : Bool)
    (stamp' : ν → ℕ) (clock' : ℕ) : Prop where
  le : clock ≤ clock'
  renews : clock = clock' → Renews typeOf stamp stamp' clock
  may : clock ≠ clock' → may = true

section passes

variable {stamp stamp' : ν → ℕ} {clock clock' : ℕ} {may may' : Bool}

omit [DecidableEq ν]

theorem Passes.or (h : Passes typeOf stamp clock may stamp' clock') (other : Bool) :
    Passes typeOf stamp clock (may || other) stamp' clock' :=
  ⟨h.le, h.renews, fun hne => by rw [h.may hne, Bool.true_or]⟩

theorem Renews.passes (h : Renews typeOf stamp stamp' clock) (may : Bool) :
    Passes typeOf stamp clock may stamp' clock :=
  ⟨le_rfl, fun _ => h, fun hne => absurd rfl hne⟩

theorem Passes.refl (typeOf : ν → ValueType) (stamp : ν → ℕ) (clock : ℕ) (may : Bool) :
    Passes typeOf stamp clock may stamp clock := Renews.passes (fun _ _ hx => hx) may

end passes

section frames

variable {stamp stamp' : ν → ℕ} {clock clock' : ℕ} {may may' : Bool} {entered : ℕ}

theorem Resumes.pass {results : List ν} {rest : ProcessRegion ν}
    (h : Resumes typeOf stamp clock may results rest)
    (hpasses : Passes typeOf stamp clock may stamp' clock') (hmay : may' = true → may = true) :
    Resumes typeOf stamp' clock' may' results rest := by
  obtain ⟨fresh, hlive, hfresh, hempty⟩ := h
  refine ⟨fresh, hlive, ?_, fun h' => hempty (hmay h')⟩
  by_cases hclock : clock = clock'
  · exact hclock ▸ hfresh.renew (hpasses.renews hclock)
  · rw [hempty (hpasses.may hclock)]
    exact fun x hx => absurd hx (notMem_empty x)

theorem Repeats.pass {arguments : List ν} (h : Repeats typeOf stamp clock entered arguments region)
    (hpasses : Passes typeOf stamp clock may stamp' clock') :
    Repeats typeOf stamp' clock' entered arguments region := by
  obtain ⟨fresh, hlive, hown, hentered, hfresh⟩ := h
  refine ⟨fresh, hlive, hown, hentered.trans hpasses.le, fun heq => ?_⟩
  have hle := hpasses.le
  have hclock : clock = clock' := by omega
  exact hclock ▸ (hfresh (heq.trans hclock.symm)).renew (hpasses.renews hclock)

theorem WhileLoop.Backed.pass {loop : WhileLoop ν} (h : loop.Backed typeOf stamp clock entered may)
    (hpasses : Passes typeOf stamp clock may stamp' clock') (hmay : may' = true → may = true) :
    loop.Backed typeOf stamp' clock' entered may' where
  condition_types := h.condition_types
  after_types := h.after_types
  before_types := h.before_types
  before := h.before.pass hpasses
  after := h.after.pass hpasses
  rest := h.rest.pass (hpasses.or _) (by simp only [or_eq_true]; exact Or.imp_left hmay)

theorem Backed.pass {frames : List (RegionFrame ν)} : ∀ {forwarded : List ν} {may may' : Bool},
    Backed typeOf stamp clock forwarded may frames →
    Passes typeOf stamp clock may stamp' clock' → (may' = true → may = true) →
    Backed typeOf stamp' clock' forwarded may' frames := by
  induction frames with
  | nil => exact fun _ _ _ => trivial
  | cons frame frames ih =>
    intro forwarded may may' h hpasses hmay
    have hor : ∀ other : Bool, (may' || other) = true → (may || other) = true := fun other => by
      simp only [or_eq_true]
      exact Or.imp_left hmay
    cases frame with
    | rest results rest =>
      obtain ⟨htypes, hrest, hframes⟩ := h
      exact ⟨htypes, hrest.pass hpasses hmay, ih hframes (hpasses.or _) (hor _)⟩
    | forBody entered remaining arguments body results rest =>
      obtain ⟨htypes, hbody, hrest, hframes⟩ := h
      exact ⟨htypes, hbody.pass hpasses, hrest.pass (hpasses.or _) (hor _),
        ih hframes (hpasses.or _) (hor _)⟩
    | whileBefore entered loop | whileAfter entered loop =>
      obtain ⟨htypes, hloop, hframes⟩ := h
      exact ⟨htypes, hloop.pass hpasses hmay, ih hframes (hpasses.or _) (hor _)⟩

end frames

/-! ### Steps -/

/-- What the steps of a run must respect: a branch is not one that the analysis skips, and a
further pass over a region of a loop comes without a suspension since the loop was entered, or
the region uses its own linear values only, as the body must when it begins anew. -/
def RegionLabel.Sound (typeOf : ν → ValueType) (clock : ℕ) : RegionLabel ν → Prop
  | .silent => True
  | .branch condition outcome => constantBool condition ≠ some (!outcome)
  | .pass entered arguments region =>
    entered ≠ clock → region.ownsLinears typeOf arguments = true
  | .restart body => body.ownsLinears typeOf [] = true

section steps

variable {stamp stamp' : ν → ℕ} {clock entered : ℕ} {may : Bool} {frames : List (RegionFrame ν)}

variable {arguments results : List ν} {rest : ProcessRegion ν} {operands : List ν}

/-- The region after an operation begins. -/
theorem Resumes.invariant (h : Resumes typeOf stamp clock may results rest)
    (htypes : sameTypes typeOf sources results = true)
    (hsources : Fresh typeOf stamp clock {x | x ∈ sources})
    (hframes : Backed typeOf stamp clock rest.terminator rest.maySuspend frames) :
    LinearInvariant typeOf ⟨rest, frames, forward stamp results sources, clock⟩ := by
  obtain ⟨fresh, hlive, hfresh, -⟩ := h
  have hrenews := renews_forward htypes hsources
  exact ⟨_, hlive, (fresh_forward htypes hsources).union (hfresh.renew hrenews),
    hframes.pass (hrenews.passes _) id⟩

/-- A region of a loop begins. -/
theorem Repeats.invariant (h : Repeats typeOf stamp clock entered arguments region)
    (hsound : entered ≠ clock → region.ownsLinears typeOf arguments = true)
    (hrenews : Renews typeOf stamp stamp' clock)
    (harguments : Fresh typeOf stamp' clock {x | x ∈ arguments})
    (hframes : Backed typeOf stamp clock region.terminator region.maySuspend frames) :
    LinearInvariant typeOf ⟨region, frames, stamp', clock⟩ := by
  obtain ⟨fresh, hlive, hown, -, hfresh⟩ := h
  have hframes' := hframes.pass (hrenews.passes _) id
  by_cases hclock : entered = clock
  · exact ⟨_, hlive, harguments.union ((hfresh hclock).renew hrenews), hframes'⟩
  · exact ⟨_, hown (hsound hclock), harguments, hframes'⟩

/-- The arguments of an `scf.for` body: the induction variable is produced, the others are
forwarded. -/
theorem forArguments (htypes : sameTypes typeOf sources (arguments.drop 1) = true)
    (hsources : Fresh typeOf stamp clock {x | x ∈ sources}) :
    Renews typeOf stamp (produce (forward stamp (arguments.drop 1) sources) (arguments.take 1) clock)
        clock ∧
      Fresh typeOf (produce (forward stamp (arguments.drop 1) sources) (arguments.take 1) clock)
        clock {x | x ∈ arguments} := by
  refine ⟨(renews_forward htypes hsources).trans (renews_produce _ _ _), fun x hx => ?_⟩
  rcases mem_append.mp ((take_append_drop 1 arguments).symm ▸ hx) with htake | hdrop
  · exact fresh_produce _ _ _ x htake
  · exact (fresh_forward htypes hsources).renew (renews_produce _ _ _) x hdrop

omit [DecidableEq ν] in
theorem LinearsAmong.fresh {values : Set ν}
    (h : LinearsAmong typeOf operands values) (hfresh : Fresh typeOf stamp clock values) :
    Fresh typeOf stamp clock {x | x ∈ operands} :=
  fun x hx hlinear => hfresh x (h x hx hlinear) hlinear

omit [DecidableEq ν] in
theorem Fresh.drop (h : Fresh typeOf stamp clock {x | x ∈ operands}) (n : ℕ) :
    Fresh typeOf stamp clock {x | x ∈ operands.drop n} := fun x hx => h x (mem_of_mem_drop hx)

theorem resumes_of_live {fresh : Set ν} (may : Bool)
    (h : rest.Live typeOf ({x | x ∈ results} ∪ kept may fresh))
    (hfresh : Fresh typeOf stamp clock fresh) : Resumes typeOf stamp clock may results rest := by
  refine ⟨_, h, hfresh.kept _, fun hmay => ?_⟩
  ext x
  simp [hmay]

theorem passes_execute (operation : Operation) (results : List ν) (stamp : ν → ℕ) (clock : ℕ) :
    Passes typeOf stamp clock (isSuspension operation)
      (produce stamp results (nextEpoch clock (isSuspension operation)))
      (nextEpoch clock (isSuspension operation)) := by
  cases isSuspension operation with
  | false => exact (renews_produce stamp results clock).passes false
  | true =>
    have hlt : clock < nextEpoch clock true := Nat.lt_succ_self clock
    exact ⟨hlt.le, fun heq => absurd heq hlt.ne, fun _ => rfl⟩

/-- A branch of an `scf.if` begins. -/
theorem branch_invariant {fresh : Set ν} (hlive : region.Live typeOf fresh)
    (hfresh : Fresh typeOf stamp clock fresh)
    (htypes : sameTypes typeOf region.terminator results = true)
    (hrest : rest.Live typeOf ({x | x ∈ results} ∪ kept may fresh))
    (hframes : Backed typeOf stamp clock rest.terminator (may || rest.maySuspend) frames)
    (hmay : region.maySuspend = true → may = true) :
    LinearInvariant typeOf ⟨region, .rest results rest :: frames, stamp, clock⟩ := by
  have hrefl := Passes.refl typeOf stamp clock may
  refine ⟨fresh, hlive, hfresh, htypes, (resumes_of_live may hrest hfresh).pass hrefl hmay,
    hframes.pass (hrefl.or _) ?_⟩
  simp only [or_eq_true]
  exact Or.imp_left hmay

theorem WhileLoop.Backed.again {loop : WhileLoop ν} {may' : Bool}
    (h : loop.Backed typeOf stamp clock entered may)
    (hmay : may' = true → (loop.before.maySuspend || loop.after.maySuspend) = true) :
    loop.Backed typeOf stamp clock entered may' where
  __ := h
  rest := h.rest.pass (Passes.refl _ _ _ _) (by grind)

end steps

theorem LinearInvariant.step {c c' : RegionConfig ν} {label : RegionLabel ν}
    (h : LinearInvariant typeOf c) (hstep : RegionStep c label c')
    (hsound : label.Sound typeOf c.clock) : LinearInvariant typeOf c' := by
  obtain ⟨fresh, hlive, hfresh, hframes⟩ := h
  cases hstep with
  | execute operation operands results rest frames stamp clock =>
    have hpasses : Passes typeOf stamp clock _ _ _ := passes_execute operation results stamp clock
    obtain ⟨fresh', hlive', hfresh', -⟩ := (resumes_of_live _ hlive.2 hfresh).pass hpasses id
    exact ⟨_, hlive', (fresh_produce _ _ _).union hfresh',
      hframes.pass (hpasses.or _) (fun hmay => (or_eq_true _ _).mpr (Or.inr hmay))⟩
  | takeThen operand thenRegion hasElse elseRegion results rest frames stamp clock hallows =>
    obtain ⟨-, hthen, -, hrest⟩ := hlive
    have hr : thenReachable _ = true := bne_iff_ne.mpr hsound
    exact branch_invariant (hthen hr).2 hfresh (hthen hr).1 hrest hframes
      (fun hmay => by simp [hr, hmay])
  | takeElse operand thenRegion hasElse elseRegion results rest frames stamp clock hallows =>
    obtain ⟨-, -, helse, hrest⟩ := hlive
    have hr : elseReachable _ = true := bne_iff_ne.mpr hsound
    exact branch_invariant (helse hr).2 hfresh (helse hr).1 hrest hframes
      (fun hmay => by simp [hr, hmay])
  | leave operands results rest frames stamp clock =>
    obtain ⟨htypes, hrest, hframes⟩ := hframes
    exact hrest.invariant htypes (hlive.fresh hfresh) hframes
  | enterInstrumentation body rest frames stamp clock =>
    obtain ⟨htypes, hbody, hrest⟩ := hlive
    exact ⟨fresh, hbody, hfresh, htypes, resumes_of_live _ hrest hfresh, hframes⟩
  | enterFor operands arguments body results rest frames stamp clock hadmits =>
    obtain ⟨hoperands, htypes, hbody, hown, hrest⟩ := hlive
    have hsources := (hoperands.fresh hfresh).drop 3
    obtain ⟨hrenews, harguments⟩ := forArguments (sameTypes_trans htypes.1 htypes.2.1) hsources
    have hrepeats : Repeats typeOf stamp clock clock arguments body :=
      ⟨fresh, hbody, hown, le_rfl, fun _ => hfresh⟩
    refine hrepeats.invariant (fun hne => absurd rfl hne) hrenews harguments ?_
    exact ⟨⟨htypes.2.2, htypes.2.2, htypes.2.1⟩, hrepeats,
      by simpa using resumes_of_live _ hrest hfresh,
      hframes.pass (Passes.refl _ _ _ _) (by grind [maySuspend])⟩
  | skipFor operands arguments body results rest frames stamp clock hadmits =>
    obtain ⟨hoperands, htypes, -, -, hrest⟩ := hlive
    refine (resumes_of_live _ hrest hfresh).invariant htypes.1 ((hoperands.fresh hfresh).drop 3) ?_
    exact hframes.pass (Passes.refl _ _ _ _) (by simp +contextual [maySuspend])
  | iterateFor operands entered remaining arguments body results rest frames stamp clock =>
    obtain ⟨htypes, hbody, hrest, hframes⟩ := hframes
    obtain ⟨hrenews, harguments⟩ := forArguments (sameTypes_trans htypes.1 htypes.2.2)
      (hlive.fresh hfresh)
    exact hbody.invariant hsound hrenews harguments
      ⟨⟨htypes.2.1, htypes.2.1, htypes.2.2⟩, hbody, by simpa [maySuspend] using hrest,
        by simpa [maySuspend] using hframes⟩
  | leaveFor operands entered arguments body results rest frames stamp clock =>
    obtain ⟨htypes, -, hrest, hframes⟩ := hframes
    exact hrest.invariant htypes.1 (hlive.fresh hfresh)
      (hframes.pass (Passes.refl _ _ _ _) (by simp +contextual))
  | enterWhile operands loop frames stamp clock =>
    obtain ⟨hoperands, htypes, hbefore, hafter, hrest⟩ := hlive
    have hsources := hoperands.fresh hfresh
    have hrepeats : Repeats typeOf stamp clock clock loop.beforeArguments loop.before :=
      ⟨fresh, hbefore.1, hbefore.2, le_rfl, fun _ => hfresh⟩
    refine hrepeats.invariant (fun hne => absurd rfl hne) (renews_forward htypes.1 hsources)
      (fresh_forward htypes.1 hsources) ⟨htypes.2.1, ?_, ?_⟩
    · exact ⟨htypes.2.1, htypes.2.2.1, htypes.2.2.2, hrepeats,
        ⟨fresh, hafter.1, hafter.2, le_rfl, fun _ => hfresh⟩,
        (resumes_of_live _ hrest hfresh).pass (Passes.refl _ _ _ _) (by grind)⟩
    · exact hframes.pass (Passes.refl _ _ _ _) (by grind [maySuspend])
  | continueWhile operands entered loop frames stamp clock hallows =>
    obtain ⟨htypes, hloop, hframes⟩ := hframes
    have hsources := (hlive.fresh hfresh).drop 1
    have hforward := sameTypes_trans htypes hloop.after_types
    refine hloop.after.invariant hsound (renews_forward hforward hsources)
      (fresh_forward hforward hsources) ⟨hloop.before_types, ?_, ?_⟩
    · exact hloop.again (by simp +contextual)
    · exact hframes.pass (Passes.refl _ _ _ _) (by grind)
  | leaveWhile operands entered loop frames stamp clock hallows =>
    obtain ⟨htypes, hloop, hframes⟩ := hframes
    exact hloop.rest.invariant htypes ((hlive.fresh hfresh).drop 1)
      (hframes.pass (Passes.refl _ _ _ _) (by simp +contextual))
  | back operands entered loop frames stamp clock =>
    obtain ⟨htypes, hloop, hframes⟩ := hframes
    have hsources := hlive.fresh hfresh
    refine hloop.before.invariant hsound (renews_forward htypes hsources)
      (fresh_forward htypes hsources) ⟨hloop.condition_types, ?_, ?_⟩
    · exact hloop.again (by simp +contextual)
    · exact hframes.pass (Passes.refl _ _ _ _) (by grind)

/-! ### Accepted processes -/

theorem usesWithin_of_all (property : ν → Bool) :
    ∀ {visible : List ν}, region.usesWithin (fun _ => true) visible = true →
      region.usesWithin property visible = true := by
  induction region with
  | _ => grind [usesWithin]

namespace Process

variable {p : Process ν}

theorem epochChecked_body (haccepted : p.accepted = true) {own : List ν}
    (howned : p.body.ownsLinears p.typeOf own = true) :
    EpochChecked p.typeOf own (p.captures.map (·, 0)) 0 p.body where
  wellTyped := p.wellTyped
  dominated := by simpa [Function.comp_def] using p.visible
  owned := howned
  visible_le := by
    intro definition hdefinition
    obtain ⟨x, -, rfl⟩ := mem_map.mp hdefinition
    exact le_rfl
  neverLater := by
    intro definition hdefinition hlinear operand hoperand heq
    have hverify := all_eq_true.mp ((and_eq_true _ _).mp haccepted).2 definition hdefinition
    have hlinear : p.linear definition.1 = true := hlinear
    rw [hlinear, Bool.not_true, Bool.false_or, all_eq_true] at hverify
    simpa [heq] using hverify operand hoperand

theorem linearInvariant_start (haccepted : p.accepted = true) : LinearInvariant p.typeOf p.start :=
  ⟨_, (epochChecked_body haccepted (usesWithin_of_all _ p.visible)).live, fun _ _ _ => rfl, trivial⟩

/-- The body begins anew; no capture is fresh. -/
theorem linearInvariant_restart (haccepted : p.accepted = true)
    (howned : p.body.ownsLinears p.typeOf [] = true) (stamp : ν → ℕ) (clock : ℕ) :
    LinearInvariant p.typeOf ⟨p.body, [], stamp, clock⟩ :=
  ⟨_, (epochChecked_body haccepted howned).live, fun _ hx _ => absurd hx.1 not_mem_nil, trivial⟩

end Process

theorem ProcessRegion.Live.operands {fresh : Set ν}
    (h : region.Live typeOf fresh) : LinearsAmong typeOf region.operands fresh := by
  cases region with
  | done _ => exact h
  | op _ _ _ _ | ifOp _ _ _ _ _ _ _ | forOp _ _ _ _ _ _ _ _ | whileOp _ _ _ _ _ _ _ _ => exact h.1
  | instrumentation _ _ => exact fun _ hx => absurd hx not_mem_nil

/-- Along a run that respects the epochs, a linear value is used only before the first
suspension after its production. -/
theorem Process.linear_values_fresh (p : Process ν) (haccepted : p.accepted = true)
    {c : RegionConfig ν}
    (hreaches : p.Reaches (fun c label => label.Sound p.typeOf c.clock) c) :
    ∀ x ∈ c.region.operands, p.linear x = true → c.stamp x = c.clock := by
  have hinvariant : LinearInvariant p.typeOf c := by
    induction hreaches with
    | start => exact linearInvariant_start haccepted
    | step _ hstep hsound ih => exact ih.step hstep hsound
    | restart _ hsound _ => exact linearInvariant_restart haccepted hsound _ _
  obtain ⟨fresh, hlive, hfresh, -⟩ := hinvariant
  exact hlive.operands.fresh hfresh

section examples

/-- The values are a resource token and others. -/
def tokenType : ℕ → ValueType
  | 0 => .resourceToken "r"
  | _ => .other "i64"

/-- After an event a token is received, and scheduled. -/
def receiveThenSchedule : Process ℕ where
  typeOf := tokenType
  captures := []
  body := .op .awaitEvent [] [] (.op .other [] [0, 1] (.op .other [0, 1] [2]
    (.op .yieldSim [] [] (.done []))))
  wellTyped := rfl
  visible := rfl

/-- In the second pass over the body the token is as new as in the first one. -/
theorem linear_values_fresh_receiveThenSchedule : ∃ c : RegionConfig ℕ, c.clock = 3 ∧
    0 ∈ c.region.operands ∧ receiveThenSchedule.linear 0 = true ∧ c.stamp 0 = c.clock := by
  have hstart : receiveThenSchedule.Reaches
      (fun c label => label.Sound receiveThenSchedule.typeOf c.clock) receiveThenSchedule.start :=
    .start
  have hevent := Process.Reaches.step hstart (.execute ..) trivial
  have hyielded := Process.Reaches.step (.step (.step hevent (.execute ..) trivial) (.execute ..)
    trivial) (.execute ..) trivial
  have hagain := Process.Reaches.step (.step (.restart hyielded rfl) (.execute ..) trivial)
    (.execute ..) trivial
  exact ⟨_, rfl, by decide, rfl,
    receiveThenSchedule.linear_values_fresh (by decide) hagain 0 (by decide) rfl⟩

/-- A captured token is scheduled in every iteration of a loop, which then awaits an event. -/
def scheduleInLoop : Process ℕ where
  typeOf := tokenType
  captures := [0]
  body := .op .other [] [1, 2, 3, 4] (.forOp (.constant 0) (.constant 2) (.constant 1) [1, 2, 3]
    [5] (.op .other [0, 4] [6] (.op .awaitEvent [] [] (.done []))) []
    (.op .yieldSim [] [] (.done [])))
  wellTyped := rfl
  visible := rfl

/-- A captured token is scheduled in every pass over the body. -/
def scheduleAlways : Process ℕ where
  typeOf := tokenType
  captures := [0]
  body := .op .other [] [1] (.op .other [0, 1] [2] (.op .yieldSim [] [] (.done [])))
  wellTyped := rfl
  visible := rfl

/-- A run uses a linear value after a suspension. -/
def Process.Reuses (p : Process ℕ) : Prop :=
  ∃ c, p.Reaches (fun _ _ => True) c ∧ ∃ x ∈ c.region.operands, p.linear x = true ∧ c.stamp x < c.clock

/-- The token is scheduled again after the event, and after `ac.yield_sim`. -/
theorem accepted_reuses_token : (scheduleInLoop.accepted = true ∧ scheduleInLoop.Reuses) ∧
    scheduleAlways.accepted = true ∧ scheduleAlways.Reuses := by
  refine ⟨⟨by decide, ?_⟩, by decide, ?_⟩
  · have htrips : Bound.AdmitsTrips (.constant 0) (.constant 2) (.constant 1) (1 + 1) := rfl
    have hstart : scheduleInLoop.Reaches (fun _ _ => True) scheduleInLoop.start := .start
    have hbody := Process.Reaches.step (.step hstart (.execute ..) trivial)
      (.enterFor _ _ _ _ _ _ _ _ htrips) trivial
    have hagain := Process.Reaches.step (.step (.step hbody (.execute ..) trivial) (.execute ..)
      trivial) (.iterateFor ..) trivial
    exact ⟨_, hagain, 0, by decide, rfl, by decide⟩
  · have hstart : scheduleAlways.Reaches (fun _ _ => True) scheduleAlways.start := .start
    have hyielded := Process.Reaches.step (.step (.step hstart (.execute ..) trivial) (.execute ..)
      trivial) (.execute ..) trivial
    have hagain := Process.Reaches.step (.restart hyielded trivial) (.execute ..) trivial
    exact ⟨_, hagain, 0, by decide, rfl, by decide⟩

end examples

end AgenticCircuit.Dialect
