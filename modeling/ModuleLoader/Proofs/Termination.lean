import ModuleLoader.Proofs.Cycle
import ModuleLoader.Proofs.Steps
/-!
Linking a static graph comes to an end.

A computation that depends on a depth comes to an end if it does so at some
depth, and since more depth changes nothing it then has one end for good. That
makes coming to an end a property that composes: of two parts each may need a
depth of its own.

What bounds the depth is the number of files. Below every source record the
chain has grown by a file that was not on it, and a synthetic record requests
nothing. So linking ends if each single link does, which is a matter of the code
of others: how a text is compiled and what a script does while it is required.
-/

namespace ModuleLoader

variable {σ η α β : Type}

namespace Eff

/-- In this state the computation comes to an end, and to the same from some depth on. -/
def Terminates (x : Nat → Eff σ η α) (s : State σ η) : Prop :=
  ∃ depth, ((x depth).runIn s).1 ≠ .error .outOfDepth ∧
    ∀ depth', depth ≤ depth' → (x depth').runIn s = (x depth).runIn s

theorem Terminates.of_continues {x : Nat → Eff σ η α} {s : State σ η}
    (hx : ∀ depth depth', depth ≤ depth' → Continues (x depth) (x depth')) {depth : Nat}
    (h : ((x depth).runIn s).1 ≠ .error .outOfDepth) : Terminates x s :=
  ⟨depth, h, fun depth' hle => (hx depth depth' hle).runIn_eq h⟩

/-- What needs no depth at all. -/
theorem Terminates.const {x : Eff σ η α} {s : State σ η} (h : (x.runIn s).1 ≠ .error .outOfDepth) :
    Terminates (fun _ => x) s :=
  ⟨0, h, fun _ _ => rfl⟩

theorem Terminates.pure (a : α) (s : State σ η) : Terminates (fun _ => Pure.pure a) s :=
  .const (by simp)

theorem Terminates.fail (e : Error) (s : State σ η) :
    Terminates (fun _ => (Eff.fail e : Eff σ η α)) s :=
  .const (by simp)

/-- One part after the other. The second has to end where the first leads, if that has a value. -/
theorem Terminates.bind {x : Nat → Eff σ η α} {f : Nat → α → Eff σ η β} {s : State σ η}
    (hx : Terminates x s)
    (hf : ∀ depth a t, (x depth).runIn s = (.ok a, t) → Terminates (fun d => f d a) t) :
    Terminates (fun d => x d >>= f d) s := by
  obtain ⟨depth, hends, hsame⟩ := hx
  cases hrun : (x depth).runIn s with
  | mk o t =>
      cases o with
      | error e =>
          refine ⟨depth, ?_, fun depth' hle => ?_⟩
          · rw [hrun] at hends
            rw [runIn_bind, hrun]
            simpa using hends
          · rw [runIn_bind, runIn_bind, hsame depth' hle, hrun]
      | ok a =>
          obtain ⟨depth₂, hends₂, hsame₂⟩ := hf depth a t hrun
          have hboth : ∀ d, depth ≤ d → (x d >>= f d).runIn s = (f d a).runIn t := by
            intro d hle
            rw [runIn_bind, hsame d hle, hrun]
          refine ⟨max depth depth₂, ?_, fun depth' hle => ?_⟩
          · rw [hboth _ (Nat.le_max_left _ _), hsame₂ _ (Nat.le_max_right _ _)]
            exact hends₂
          · have h₁ : depth ≤ depth' := Nat.le_trans (Nat.le_max_left _ _) hle
            have h₂ : depth₂ ≤ depth' := Nat.le_trans (Nat.le_max_right _ _) hle
            rw [hboth _ h₁, hboth _ (Nat.le_max_left _ _), hsame₂ _ h₂,
              hsame₂ _ (Nat.le_max_right _ _)]

theorem Terminates.settle {x : Nat → Eff σ η α} {s : State σ η} (hx : Terminates x s) :
    Terminates (fun d => (x d).settle) s := by
  obtain ⟨depth, hends, hsame⟩ := hx
  refine ⟨depth, ?_, fun depth' hle => ?_⟩
  · rw [runIn_settle]
    cases hrun : (x depth).runIn s with
    | mk o t =>
        rw [hrun] at hends
        match o with
        | .ok a => simp
        | .error (.error e) => simp
        | .error (.panic m) => simp
        | .error .outOfDepth => exact absurd rfl hends
  · rw [runIn_settle, runIn_settle, hsame depth' hle]

end Eff

namespace Linker

open Eff

variable {host : Host σ η} {entry : Path} {context : ContextId}

theorem terminates_serve {c : Call} {s : State σ η}
    (h : Terminates (fun depth => answer host (serve host depth) c) s) :
    Terminates (fun depth => serve host depth c) s := by
  obtain ⟨depth, hends, hsame⟩ := h
  refine ⟨depth + 1, hends, fun depth' hle => ?_⟩
  cases depth' with
  | zero => omega
  | succ d => exact hsame d (by omega)

theorem terminates_recordAt (r : RecordId) (s : State σ η) :
    Terminates (fun _ => recordAt r) s := by
  rcases runIn_recordAt_cases r s with ⟨record, -, hrun⟩ | ⟨m, hrun⟩
  · exact .const (by simp [hrun])
  · exact .const (by simp [hrun])

theorem terminates_transition (r : RecordId) (status : Status) (s : State σ η) :
    Terminates (fun _ => transition r status) s := by
  refine (terminates_recordAt r s).bind fun _ record t _ => .const ?_
  split <;> simp

theorem terminates_markFailed (r : RecordId) (e : Error) (s : State σ η) :
    Terminates (fun _ => markFailed r e) s := by
  refine (terminates_recordAt r s).bind fun _ record t _ => .const ?_
  split <;> simp

theorem terminates_onBehalf (r : RecordId) {work : Nat → Eff σ η α} {s : State σ η}
    (h : Terminates work s) : Terminates (fun depth => onBehalf r (work depth)) s := by
  refine h.settle.bind fun _ o t _ => ?_
  cases o with
  | ok a => exact .pure a t
  | error e => exact (terminates_markFailed r e t).bind fun _ _ t _ => .fail e t

/-- The requests of a record are linked if each can be linked, and if what is made of it can then be
linked in turn. -/
theorem terminates_linkRequests {r : RecordId} {referrer : Referrer} {specifiers : List String}
    (hlink : ∀ specifier ∈ specifiers, ∀ s,
      Terminates (fun depth => link host (serve host depth) specifier referrer) s)
    (hdep : ∀ specifier ∈ specifiers, ∀ depth s dep t,
      (link host (serve host depth) specifier referrer).runIn s = (.ok dep, t) →
      Terminates (fun depth => serve host depth (.linkModule dep)) t)
    (s : State σ η) :
    Terminates (fun depth => linkRequests host (serve host depth) r referrer specifiers) s := by
  induction specifiers generalizing s with
  | nil => exact .pure () s
  | cons specifier rest ih =>
      have hrest := ih (fun x hx => hlink x (List.mem_cons_of_mem _ hx))
        (fun x hx => hdep x (List.mem_cons_of_mem _ hx))
      refine (hlink specifier List.mem_cons_self s).bind fun depth dep t hrun => ?_
      refine (hdep specifier List.mem_cons_self depth s dep t hrun).bind fun _ _ t _ => ?_
      exact Terminates.bind (.const (by simp)) fun _ _ t _ => hrest t

theorem terminates_linkModule {r : RecordId} {record : ModuleRecord σ η} {s : State σ η}
    (hr : s.records[r.index]? = some record)
    (h : ∀ t, Terminates (fun depth => linkRequests host (serve host depth) r record.referrer
      record.requests) t) :
    Terminates (fun depth => serve host depth (.linkModule r)) s := by
  refine terminates_serve ((terminates_recordAt r s).bind fun _ found t hfound => ?_)
  obtain rfl : found = record := by
    simpa [hr, eq_comm] using (runIn_recordAt_eq_ok.1 hfound).1
  cases found.status with
  | unlinked =>
      refine (terminates_transition r _ t).bind fun _ _ t _ => ?_
      exact (terminates_onBehalf r (h t)).bind fun _ _ t _ => terminates_transition r _ t
  | linking => exact .fail _ t
  | errored => exact .fail _ t
  | _ => exact .pure () t

theorem terminates_link {specifier : String} {referrer : Referrer} {s : State σ η} {depth : Nat}
    (h : ((link host (serve host depth) specifier referrer).runIn s).1 ≠ .error .outOfDepth) :
    Terminates (fun depth => link host (serve host depth) specifier referrer) s :=
  .of_continues (fun _ _ hle =>
    (loadInvariant_continues host fun c => continues_serve host hle c).link (fun _ => trivial)
      specifier referrer) h

/-! ### The room that is left on a chain -/

/-- By how much the chain below a record may still grow, and one more. Where nothing is requested it
does not grow. -/
def room (host : Host σ η) (record : ModuleRecord σ η) : Nat :=
  match record.dispatch with
  | .synthetic => 0
  | .source => host.files.fileCount + 1 - record.chain.length

theorem NoSlips.room_lt (hnoSlips : NoSlips host entry context) {parent record : ModuleRecord σ η}
    (hparent : Below host entry context parent) {specifier : String}
    (hmem : specifier ∈ parent.requests) {serve : (c : Call) → Eff σ η c.Reply} {s s' : State σ η}
    {r : RecordId} (hlink : (link host serve specifier parent.referrer).runIn s = (.ok r, s'))
    (hr : s'.records[r.index]? = some record) : room host record < room host parent := by
  have hsource := dispatch_of_mem_requests hmem
  have hroom : room host parent = host.files.fileCount + 1 - parent.chain.length := by
    simp [room, hsource]
  have hlength := hnoSlips.length_chain hparent hsource
  cases hd : record.dispatch with
  | synthetic =>
      have hzero : room host record = 0 := by simp [room, hd]
      omega
  | source =>
      have hbelow : Below host entry context record := .link hparent hmem hlink hr
      have hchild := hnoSlips.length_chain hbelow hd
      have hlineage : record.lineage = parent.chain := lineage_of_link hlink hr
      have hgrown : record.chain.length = parent.chain.length + 1 := by
        rw [ModuleRecord.chain, hlineage, List.length_append, List.length_singleton]
      have hrecord : room host record = host.files.fileCount + 1 - record.chain.length := by
        simp [room, hd]
      omega

/-- Linking a record of a graph in which no edge slips comes to an end. -/
theorem NoSlips.terminates_linkModule (hnoSlips : NoSlips host entry context)
    (hlinks : ∀ parent, Below host entry context parent → ∀ specifier ∈ parent.requests, ∀ s,
      Terminates (fun depth => link host (serve host depth) specifier parent.referrer) s)
    {record : ModuleRecord σ η} (h : Below host entry context record) {r : RecordId}
    {s : State σ η} (hr : s.records[r.index]? = some record) :
    Terminates (fun depth => serve host depth (.linkModule r)) s := by
  -- by induction on the room that is left below the record
  induction hroom : room host record using Nat.strongRecOn generalizing record r s with
  | _ n ih =>
      refine Linker.terminates_linkModule hr fun t => ?_
      refine terminates_linkRequests (hlinks record h) ?_ t
      intro specifier hmem depth s' dep t' hrun
      obtain ⟨name, kind, m, rfl, rfl, -⟩ := link_eq_ok hrun
      have hdep := State.records_add_next m (.fresh name record.referrer kind)
      have hlt := hnoSlips.room_lt h hmem hrun hdep
      exact ih _ (hroom ▸ hlt) (.link h hmem hrun hdep) hdep rfl

/-! ### The whole -/

/-- An edge that leads back to a canonical path is reported at once. One that leads back to any
other path has a blurred specifier, and what is built for it has its own name in its lineage. If no
edge of a graph slips in this way then linking it comes to an end. -/
theorem static_cycles_cut (host : Host σ η) (entry : Path) (context : ContextId) :
    (∀ parent, Below host entry context parent → ∀ specifier ∈ parent.requests, ∀ p,
      LeadsBack host specifier parent.referrer p →
      (p.normalize = p → ∀ serve, link host serve specifier parent.referrer =
        Eff.fail (.circularImport (parent.chain ++ [p.text]))) ∧
      (p.normalize ≠ p → RequireId.Blurred specifier ∧ ∀ serve s r s' record,
        (link host serve specifier parent.referrer).runIn s = (.ok r, s') →
        s'.records[r.index]? = some record →
        record.dispatch = .source ∧ record.identifier ∈ record.lineage)) ∧
    ((∀ record, Below host entry context record → record.dispatch = .source →
        record.identifier ∉ record.lineage) ↔ NoSlips host entry context) ∧
    ((∀ parent, Below host entry context parent → ∀ specifier ∈ parent.requests,
        ¬ RequireId.Blurred specifier) → NoSlips host entry context) ∧
    (NoSlips host entry context →
      (∀ record, Below host entry context record → record.dispatch = .source →
        record.lineage.Nodup ∧ record.lineage.length < host.files.fileCount) ∧
      ((∀ parent, Below host entry context parent → ∀ specifier ∈ parent.requests, ∀ s,
          ∃ depth, ((link host (serve host depth) specifier parent.referrer).runIn s).1 ≠
            .error .outOfDepth) →
        ∀ record, Below host entry context record → ∀ s r, s.records[r.index]? = some record →
          ∃ depth, ((serve host depth (.linkModule r)).runIn s).1 ≠ .error .outOfDepth)) := by
  refine ⟨?_, ⟨?_, ?_⟩, ?_, fun hnoSlips => ⟨?_, ?_⟩⟩
  · intro parent hparent specifier hmem p hback
    refine ⟨fun hp serve => hback.link_eq_fail hp serve, fun hp => ⟨?_, ?_⟩⟩
    · exact (hback.link_eq_buildSource hparent hmem hp).1
    · intro serve s r s' record hlink hr
      exact ⟨hback.dispatch_eq hparent hmem hp hlink hr, hback.mem_lineage hparent hmem hp hlink hr⟩
  · rintro hlaw parent hparent specifier hmem ⟨p, hback, hp, serve, s, s', r, hlink⟩
    obtain ⟨name, kind, m, rfl, rfl, -⟩ := link_eq_ok hlink
    have hr := State.records_add_next m (.fresh name parent.referrer kind)
    exact hlaw _ (.link hparent hmem hlink hr) (hback.dispatch_eq hparent hmem hp hlink hr)
      (hback.mem_lineage hparent hmem hp hlink hr)
  · exact fun hnoSlips record h hsource => hnoSlips.not_mem_lineage h hsource
  · rintro hclear parent hparent specifier hmem ⟨p, hback, hp, -⟩
    exact hclear parent hparent specifier hmem (hback.link_eq_buildSource hparent hmem hp).1
  · intro record h hsource
    have hlength := hnoSlips.length_chain h hsource
    rw [ModuleRecord.chain, List.length_append, List.length_singleton] at hlength
    exact ⟨(hnoSlips.nodup_chain h).1, hlength⟩
  · intro hlinks record h s r hr
    have hends := hnoSlips.terminates_linkModule (fun parent hparent specifier hmem s =>
      let ⟨_, hdepth⟩ := hlinks parent hparent specifier hmem s
      terminates_link hdepth) h hr
    obtain ⟨depth, hdepth, -⟩ := hends
    exact ⟨depth, hdepth⟩

/-! ### A module that imports itself

A package of one file, which requests one specifier. By `./index.js` it means
itself under a canonical path, and by `@s/.` under another. -/

def selfFiles : FileTree :=
  ⟨[(["index.js", "@s", "node_modules"], .file (some "")), (["@s", "node_modules"], .directory),
    (["node_modules"], .directory)]⟩

def selfCompiled (specifier : String) : Compiled Unit Empty :=
  ⟨[specifier], fun _ => throw (.engine "nothing to run")⟩

def selfImporting (specifier : String) : Host Unit Empty where
  files := selfFiles
  config := { extensions := [("js", .source)] }
  builtins := .empty "node:"
  linkerBuiltins? := none
  scriptContext := ⟨0⟩
  compile _ _ := pure (selfCompiled specifier)
  runScript _ _ := pure ()
  hook h := nomatch h
  lookup? := none

def selfEntry : Path := ⟨"/node_modules/@s/index.js"⟩

def selfRecord (specifier : String) (lineage : List String) : ModuleRecord Unit Empty :=
  .fresh selfEntry.text ⟨"", ⟨0⟩, lineage⟩
    (.source ⟨selfEntry, "file:///node_modules/@s/index.js", selfCompiled specifier⟩)

theorem read_selfEntry : selfFiles.read selfEntry = .ok "" := by decide +kernel

theorem fileUrl?_selfEntry : selfEntry.fileUrl? = some "file:///node_modules/@s/index.js" := by
  decide +kernel

theorem runIn_buildSource_self (specifier : String)
    (serve : (c : Call) → Eff Unit Empty c.Reply) {asked : String} {referrer : Referrer}
    (h : resolveFile (selfImporting specifier) asked referrer = .ok selfEntry)
    (hcontext : referrer.context = ⟨0⟩) (s : State Unit Empty) :
    ∃ m : State Unit Empty, (buildSource (selfImporting specifier) serve asked referrer).runIn s =
      (.ok m.next, m.add (selfRecord specifier referrer.lineage)) := by
  have hcompile : (selfImporting specifier).compile ""
      ⟨selfEntry.text, referrer.context, "file:///node_modules/@s/index.js"⟩ =
        pure (selfCompiled specifier) := rfl
  obtain ⟨m, -, hrun⟩ := runIn_buildSource h read_selfEntry fileUrl?_selfEntry hcompile s
  refine ⟨m, ?_⟩
  rw [hrun, ModuleRecord.fresh, hcontext]
  rfl

theorem below_selfRecord (specifier : String) :
    Below (selfImporting specifier) selfEntry ⟨0⟩ (selfRecord specifier []) := by
  have hresolve : resolveFile (selfImporting "") selfEntry.text (.root selfEntry.text ⟨0⟩) =
      .ok selfEntry := by decide +kernel
  obtain ⟨m, hrun⟩ := runIn_buildSource_self specifier (serve (selfImporting specifier) 0) hresolve
    rfl (State.initial ())
  exact .entry hrun (State.records_add_next m _)

/-- Everything below the file requests the same. -/
theorem eq_of_mem_requests {specifier x : String} {record : ModuleRecord Unit Empty}
    (h : Below (selfImporting specifier) selfEntry ⟨0⟩ record) (hx : x ∈ record.requests) :
    x = specifier := by
  have hbuilt : ∀ {serve : (c : Call) → Eff Unit Empty c.Reply} {asked : String}
      {referrer : Referrer} {s s' : State Unit Empty} {r : RecordId},
      (buildSource (selfImporting specifier) serve asked referrer).runIn s = (.ok r, s') →
      s'.records[r.index]? = some record → x = specifier := by
    intro serve asked referrer s s' r hbuild hr
    obtain ⟨_, _, _, _, _, m, -, -, -, hcompile, rfl, rfl⟩ := buildSource_eq_ok hbuild
    rw [State.records_add_next, Option.some.injEq] at hr
    cases hcompile
    subst hr
    exact List.mem_singleton.1 hx
  cases h with
  | entry hbuild hr => exact hbuilt hbuild hr
  | link _ _ hlink hr =>
      rw [link_eq_plan] at hlink
      obtain ⟨⟨d, name⟩, _, -, hbuild⟩ := Eff.runIn_bind_eq_ok.1 hlink
      cases d with
      | source => exact hbuilt hbuild hr
      | synthetic =>
          obtain ⟨_, _, m, -, rfl, rfl⟩ := buildSynthetic_eq_ok hbuild
          rw [State.records_add_next, Option.some.injEq] at hr
          subst hr
          simp [ModuleRecord.requests, ModuleRecord.fresh] at hx

theorem eq_selfEntry {text : String} (h : selfFiles.Holds text) : text = selfEntry.text := by
  have hplaces : selfFiles.filePlaces = [["index.js", "@s", "node_modules"]] := by decide +kernel
  obtain ⟨htext, hmem⟩ := h.placeOf
  rw [hplaces, List.mem_singleton] at hmem
  rw [htext, hmem]
  decide +kernel

/-- By `./index.js` the file leads back to itself. -/
theorem leadsBack_selfEntry {parent : ModuleRecord Unit Empty}
    (h : Below (selfImporting "./index.js") selfEntry ⟨0⟩ parent)
    (hsource : parent.dispatch = .source) :
    LeadsBack (selfImporting "./index.js") "./index.js" parent.referrer selfEntry := by
  have hid : parent.identifier = selfEntry.text := eq_selfEntry (h.holds.2 hsource)
  have hfound : resolve (selfImporting "./index.js") "./index.js" (.root selfEntry.text ⟨0⟩) =
      .ok (.file selfEntry) := by decide +kernel
  refine ⟨by decide +kernel, ⟨.file selfEntry, ?_, rfl⟩, by decide +kernel, ?_⟩
  · rw [← hfound, resolve, resolve]
    exact congrArg _ hid
  · have hnormal : selfEntry.normalize.text = selfEntry.text := by decide +kernel
    rw [hnormal, ← hid]
    exact List.mem_append_right _ (List.mem_singleton_self _)

/-- In the graph of the file that imports itself by `./index.js` no edge slips. Its request is
reported, and linking it comes to an end. -/
theorem static_cycles_cut_selfEntry :
    (selfEntry.normalize = selfEntry ∧
      ∀ serve, link (selfImporting "./index.js") serve "./index.js"
        (selfRecord "./index.js" []).referrer =
          Eff.fail (.circularImport [selfEntry.text, selfEntry.text])) ∧
    NoSlips (selfImporting "./index.js") selfEntry ⟨0⟩ ∧
    ∃ s r, s.records[r.index]? = some (selfRecord "./index.js" []) ∧
      ∃ depth, ((serve (selfImporting "./index.js") depth (.linkModule r)).runIn s).1 ≠
        .error .outOfDepth := by
  obtain ⟨hedges, -, hclear, hnoSlips⟩ :=
    static_cycles_cut (selfImporting "./index.js") selfEntry ⟨0⟩
  have hbelow := below_selfRecord "./index.js"
  have hnormal : selfEntry.normalize = selfEntry := by decide +kernel
  have hfail : ∀ parent, Below (selfImporting "./index.js") selfEntry ⟨0⟩ parent →
      ∀ specifier ∈ parent.requests, ∀ serve,
        link (selfImporting "./index.js") serve specifier parent.referrer =
          Eff.fail (.circularImport (parent.chain ++ [selfEntry.text])) := by
    intro parent hparent specifier hmem
    obtain rfl := eq_of_mem_requests hparent hmem
    have hback := leadsBack_selfEntry hparent (dispatch_of_mem_requests hmem)
    exact (hedges parent hparent _ hmem selfEntry hback).1 hnormal
  have hnoSlips' : NoSlips (selfImporting "./index.js") selfEntry ⟨0⟩ := by
    refine hclear fun parent hparent specifier hmem => ?_
    rw [eq_of_mem_requests hparent hmem]
    rintro ⟨scope, dots, -, -, he⟩
    have hhead := congrArg (fun t : String => t.toList.head?) he
    simp at hhead
  refine ⟨⟨hnormal, hfail _ hbelow _ (List.mem_singleton_self _)⟩, hnoSlips', ?_⟩
  refine ⟨(State.initial ()).add (selfRecord "./index.js" []), (State.initial ()).next,
    State.records_add_next _ _, ?_⟩
  refine (hnoSlips hnoSlips').2 (fun parent hparent specifier hmem s => ⟨0, ?_⟩) _ hbelow _ _
    (State.records_add_next _ _)
  rw [hfail parent hparent specifier hmem]
  simp

def selfSpelled : Path := ⟨"/node_modules/@s/./index.js"⟩

/-- In every state, the request is linked to one more record of the file. -/
theorem link_selfRecord (serve : (c : Call) → Eff Unit Empty c.Reply) {lineage : List String}
    (h : ∀ c ∈ lineage, c = selfEntry.text) (s : State Unit Empty) :
    ∃ m : State Unit Empty,
      (link (selfImporting "@s/.") serve "@s/." (selfRecord "@s/." lineage).referrer).runIn s =
        (.ok m.next, m.add (selfRecord "@s/." (lineage ++ [selfEntry.text]))) := by
  have hfound : resolve (selfImporting "@s/.") "@s/." (.root selfEntry.text ⟨0⟩) =
      .ok (.package "@s/." selfSpelled) := by decide +kernel
  have hagain : resolveFile (selfImporting "@s/.") selfSpelled.text (.root selfEntry.text ⟨0⟩) =
      .ok selfEntry := by decide +kernel
  have hback : LeadsBack (selfImporting "@s/.") "@s/." (selfRecord "@s/." lineage).referrer
      selfSpelled := by
    refine ⟨by decide +kernel, ⟨_, hfound, rfl⟩, by decide +kernel, ?_⟩
    have hnormal : selfSpelled.normalize.text = selfEntry.text := by decide +kernel
    rw [hnormal]
    exact List.mem_append_right lineage (List.mem_singleton_self _)
  have hchain : selfSpelled.text ∉ (selfRecord "@s/." lineage).referrer.lineage := by
    intro hmem
    have heq : selfSpelled.text = selfEntry.text := by
      rcases List.mem_append.1 hmem with hmem | hmem
      · exact h _ hmem
      · exact List.mem_singleton.1 hmem
    exact absurd heq (by decide +kernel)
  have hagain : resolveFile (selfImporting "@s/.") selfSpelled.text
      (selfRecord "@s/." lineage).referrer = .ok selfEntry := hagain
  obtain ⟨m, hrun⟩ := runIn_buildSource_self "@s/." serve hagain rfl s
  refine ⟨m, ?_⟩
  rw [link_eq_plan, hback.plan_eq, if_neg hchain]
  exact hrun

/-- Linking the record goes deeper than any depth. -/
theorem linkModule_selfRecord (depth : Nat) {s : State Unit Empty} {r : RecordId}
    {lineage : List String} (h : ∀ c ∈ lineage, c = selfEntry.text)
    (hr : s.records[r.index]? = some (selfRecord "@s/." lineage)) :
    ((serve (selfImporting "@s/.") depth (.linkModule r)).runIn s).1 = .error .outOfDepth := by
  induction depth generalizing s r lineage with
  | zero => rfl
  | succ depth ih =>
      obtain ⟨m, hlink⟩ := link_selfRecord (serve (selfImporting "@s/.") depth) h
        (setPhaseIn s r .linking)
      have hchild : ∀ c ∈ lineage ++ [selfEntry.text], c = selfEntry.text := by
        intro c hc
        rcases List.mem_append.1 hc with hc | hc
        · exact h c hc
        · exact List.mem_singleton.1 hc
      have hdep := ih hchild (State.records_add_next m _)
      have hwork : ((linkRequests (selfImporting "@s/.") (serve (selfImporting "@s/.") depth) r
          (selfRecord "@s/." lineage).referrer ["@s/."]).runIn (setPhaseIn s r .linking)).1 =
          .error .outOfDepth := by
        rw [linkRequests, Eff.runIn_bind, hlink]
        exact Eff.runIn_bind_of_error hdep
      change
        ((linkModule (selfImporting "@s/.") (serve (selfImporting "@s/.") depth) r).runIn s).1 = _
      rw [runIn_linkModule_of_unlinked hr rfl]
      exact Eff.runIn_bind_of_error
        (Eff.runIn_bind_of_error (Eff.runIn_settle_of_outOfDepth hwork))

/-- Static cycles are not always cut: by a blurred specifier a module is built again below itself,
and linking it does not come to an end. -/
theorem static_cycle_not_cut :
    ∃ (host : Host Unit Empty) (entry : Path) (context : ContextId)
        (record : ModuleRecord Unit Empty),
      entry.isAbsolute = true ∧ Below host entry context record ∧ record.dispatch = .source ∧
        record.identifier ∈ record.lineage ∧ ∃ s r, s.records[r.index]? = some record ∧
          ∀ depth, ((serve host depth (.linkModule r)).runIn s).1 = .error .outOfDepth := by
  have hnone : ∀ c ∈ ([] : List String), c = selfEntry.text := by simp
  obtain ⟨m, hlink⟩ := link_selfRecord (serve (selfImporting "@s/.") 0) hnone (State.initial ())
  have hr := State.records_add_next m (selfRecord "@s/." [selfEntry.text])
  refine ⟨selfImporting "@s/.", selfEntry, ⟨0⟩, selfRecord "@s/." [selfEntry.text], by decide,
    .link (below_selfRecord "@s/.") (List.mem_singleton_self _) hlink hr, rfl,
    List.mem_singleton_self _, _, m.next, hr, fun depth => ?_⟩
  exact linkModule_selfRecord depth (fun c hc => List.mem_singleton.1 hc) hr

end Linker

end ModuleLoader
