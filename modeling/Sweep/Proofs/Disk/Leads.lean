import Sweep.Disk.Reading
import Sweep.Proofs.Disk.Pruned
/-!
# Where paths lead

`Leads` says where a path leads step by step, without the faults: one constructor for each way in
which a step can succeed. `walk_eq_found_iff` is the bridge to `walk`, and all facts about look-ups
that succeed are inductions on `Leads`. How many symbolic links may still be followed is part of the
relation, at the start of a way and at its end, so that a way can be cut in two.

## Main results

* `Leads.of_prunedWithin` — a path that leads somewhere on a pruned tree led there before.
* `Leads.split`, `Leads.join` — a way through a place is a way to it and a way from it.
* `Leads.look_of_reach` — what can be reached can be looked at.
* `Leads.spelled` — names along which there are no links lead to the place that they spell.
* `at?_eq_none_of_missing` — where such names lead nowhere there is nothing.
-/

namespace Sweep.Disk

open Node

/-- Where steps lead from a place. The numbers are how many symbolic links may still be followed,
before the first step and after the last. -/
inductive Leads (root : Node) (actor : Actor) (purpose : Purpose) :
    Nat → Place → List Bytes → Nat → Place → Prop where
  /-- No steps lead to the place itself. -/
  | done {links : Nat} {here : Place} : Leads root actor purpose links here [] links here
  /-- Nothing between two slashes. -/
  | empty {links left : Nat} {here place : Place} {rest : List Bytes} {rights : Rights}
      {entries : List (Name × Node)} (hdir : root.at? here = some (.directory rights entries))
      (next : Leads root actor purpose links here rest left place) :
      Leads root actor purpose links here ([] :: rest) left place
  /-- A dot. -/
  | stay {links left : Nat} {here place : Place} {rest : List Bytes} {rights : Rights}
      {entries : List (Name × Node)} (hdir : root.at? here = some (.directory rights entries))
      (hsearch : actor.may rights.search = true)
      (next : Leads root actor purpose links here rest left place) :
      Leads root actor purpose links here (dot :: rest) left place
  /-- Two dots. -/
  | up {links left : Nat} {here place : Place} {rest : List Bytes} {rights : Rights}
      {entries : List (Name × Node)} (hdir : root.at? here = some (.directory rights entries))
      (hsearch : actor.may rights.search = true)
      (next : Leads root actor purpose links here.dropLast rest left place) :
      Leads root actor purpose links here (dotDot :: rest) left place
  /-- A name; a link counts as an entry only at the end of a path that looks. -/
  | enter {links left : Nat} {here place : Place} {rest : List Bytes} {rights : Rights}
      {entries : List (Name × Node)} {name : Name} {node : Node}
      (hdir : root.at? here = some (.directory rights entries))
      (hsearch : actor.may rights.search = true)
      (hopen : ¬ (purpose = .write ∧ rest ≠ [] ∧ ∀ step ∈ rest, step = []))
      (hnode : root.at? (here ++ [name]) = some node)
      (hlink : ∀ target, node = .link target → purpose = .look ∧ rest = [])
      (next : Leads root actor purpose links (here ++ [name]) rest left place) :
      Leads root actor purpose links here (name.bytes :: rest) left place
  /-- The name of a link, whose target goes in its stead. -/
  | follow {links left : Nat} {here place : Place} {rest : List Bytes} {rights : Rights}
      {entries : List (Name × Node)} {name : Name} {target : Bytes}
      (hdir : root.at? here = some (.directory rights entries))
      (hsearch : actor.may rights.search = true)
      (hopen : ¬ (purpose = .write ∧ rest ≠ [] ∧ ∀ step ∈ rest, step = []))
      (hnode : root.at? (here ++ [name]) = some (.link target))
      (hlink : purpose ≠ .look ∨ rest ≠ [])
      (next : Leads root actor purpose links
        (if (Path.ofBytes target).rooted then [] else here)
        ((Path.ofBytes target).steps ++ rest) left place) :
      Leads root actor purpose (links + 1) here (name.bytes :: rest) left place

theorem Name.ofBytes?_bytes (name : Name) : Name.ofBytes? name.bytes = some name := by
  simp [Name.ofBytes?, name.proper]

theorem Name.bytes_of_ofBytes? {bytes : Bytes} {name : Name}
    (h : Name.ofBytes? bytes = some name) : name.bytes = bytes := by
  unfold Name.ofBytes? at h
  split at h
  · cases h
    rfl
  · cases h

theorem Name.bytes_injective {a b : Name} (h : a.bytes = b.bytes) : a = b := by
  cases a
  cases b
  simp_all

theorem leads_of_walk {root : Node} {actor : Actor} {purpose : Purpose} {links : Nat}
    {here place : Place} {steps : List Bytes}
    (h : walk root actor purpose links here steps = .ok (.found place)) :
    ∃ left, Leads root actor purpose links here steps left place := by
  fun_induction walk root actor purpose links here steps
  case case1 =>
    cases h
    exact ⟨_, .done⟩
  case case2 hdir ih =>
    obtain ⟨left, hnext⟩ := ih h
    exact ⟨left, .empty hdir hnext⟩
  case case4 hdir hsearch _ ih =>
    obtain ⟨left, hnext⟩ := ih h
    exact ⟨left, .stay hdir (by simpa using hsearch) hnext⟩
  case case5 hdir hsearch _ _ ih =>
    obtain ⟨left, hnext⟩ := ih h
    exact ⟨left, .up hdir (by simpa using hsearch) hnext⟩
  case case11 hdir _ hsearch _ _ hopen name hname target hlookup hlink links _ ih =>
    obtain ⟨left, hnext⟩ := ih (by simpa using h)
    rw [← Name.bytes_of_ofBytes? hname]
    refine ⟨left, .follow hdir (by simpa using hsearch) (by simpa using hopen)
      ((at?_concat hdir name).trans hlookup) (by simpa using hlink) ?_⟩
    simpa using hnext
  case case12 hdir _ hsearch _ _ hopen name hname target hlookup hlink =>
    rw [← Name.bytes_of_ofBytes? hname]
    simp at hlink
    obtain ⟨hlook, rfl⟩ := hlink
    cases h
    exact ⟨_, .enter hdir (by simpa using hsearch) (by simp)
      ((at?_concat hdir name).trans hlookup) (fun _ _ => ⟨hlook, rfl⟩) .done⟩
  case case13 hdir _ hsearch _ _ hopen name hname node hnolink hlookup ih =>
    obtain ⟨left, hnext⟩ := ih h
    rw [← Name.bytes_of_ofBytes? hname]
    exact ⟨left, .enter hdir (by simpa using hsearch) (by simpa using hopen)
      ((at?_concat hdir name).trans hlookup)
      (fun target htarget => (hnolink target htarget).elim) hnext⟩
  all_goals cases h

theorem walk_of_leads {root : Node} {actor : Actor} {purpose : Purpose} {links left : Nat}
    {here place : Place} {steps : List Bytes}
    (h : Leads root actor purpose links here steps left place) :
    walk root actor purpose links here steps = .ok (.found place) := by
  induction h with
  | done => rw [walk]
  | empty hdir _ ih =>
      rw [walk]
      simp [hdir, ih]
  | stay hdir hsearch _ ih =>
      rw [walk]
      simp [hdir, hsearch, ih, dot]
  | up hdir hsearch _ ih =>
      rw [walk]
      simp [hdir, hsearch, ih, dot, dotDot]
  | @enter links left here place rest rights entries name node hdir hsearch hopen hnode hlink _ ih =>
      obtain ⟨hempty, hdot, hdotDot, -⟩ := name.proper
      rw [at?_concat hdir] at hnode
      rw [walk]
      simp only [hdir, hempty, hdot, hdotDot, hsearch, if_false, Name.ofBytes?_bytes, hnode]
      rw [if_neg (by simp), if_neg (by simpa using hopen)]
      cases node with
      | link target =>
          obtain ⟨rfl, rfl⟩ := hlink target rfl
          simpa [walk] using ih
      | file rights content => exact ih
      | directory rights entries => exact ih
  | @follow links left here place rest rights entries name target hdir hsearch hopen hnode hlink _ ih =>
      obtain ⟨hempty, hdot, hdotDot, -⟩ := name.proper
      rw [at?_concat hdir] at hnode
      rw [walk]
      simp only [hdir, hempty, hdot, hdotDot, hsearch, if_false, Name.ofBytes?_bytes, hnode]
      rw [if_neg (by simp), if_neg (by simpa using hopen), if_pos (by simpa using hlink)]
      exact ih

/-- A walk succeeds exactly along steps that lead somewhere. -/
theorem walk_eq_found_iff {root : Node} {actor : Actor} {purpose : Purpose} {links : Nat}
    {here place : Place} {steps : List Bytes} :
    walk root actor purpose links here steps = .ok (.found place) ↔
      ∃ left, Leads root actor purpose links here steps left place :=
  ⟨leads_of_walk, fun ⟨_, h⟩ => walk_of_leads h⟩

namespace Leads

variable {root : Node} {actor : Actor} {purpose : Purpose} {links left : Nat}
  {here place : Place} {steps : List Bytes}

/-- A path that leads somewhere on a pruned tree led there before. -/
theorem of_prunedWithin {p : Place → Prop} {old new : Node} (hpruned : PrunedWithin p old new)
    (h : Leads new actor purpose links here steps left place) :
    Leads old actor purpose links here steps left place := by
  induction h with
  | done => exact .done
  | empty hdir _ ih =>
      obtain ⟨held, hheld⟩ := hpruned.at?_directory hdir
      exact .empty hheld ih
  | stay hdir hsearch _ ih =>
      obtain ⟨held, hheld⟩ := hpruned.at?_directory hdir
      exact .stay hheld hsearch ih
  | up hdir hsearch _ ih =>
      obtain ⟨held, hheld⟩ := hpruned.at?_directory hdir
      exact .up hheld hsearch ih
  | enter hdir hsearch hopen hnode hlink _ ih =>
      obtain ⟨held, hheld⟩ := hpruned.at?_directory hdir
      obtain ⟨before, hbefore, hsurface⟩ := hpruned.at?_eq_some hnode
      refine .enter hheld hsearch hopen hbefore (fun target htarget => ?_) ih
      rw [htarget] at hsurface
      exact hlink target (surface_eq_link hsurface.symm)
  | follow hdir hsearch hopen hnode hlink _ ih =>
      obtain ⟨held, hheld⟩ := hpruned.at?_directory hdir
      exact .follow hheld hsearch hopen (hpruned.at?_link hnode) hlink ih

/-! ### Ways in two parts

Before the last step every link is followed, so the first part of a way is one to reach its end,
whatever the whole is for.
-/

/-- A way goes through the place to which its first steps lead. -/
theorem split {first second : List Bytes} (hsecond : second ≠ [])
    (h : Leads root actor purpose links here (first ++ second) left place) :
    ∃ between mid, Leads root actor .reach links here first between mid ∧
      Leads root actor purpose between mid second left place := by
  generalize hall : first ++ second = all at h
  induction h generalizing first with
  | done => exact absurd (List.append_eq_nil_iff.1 hall).2 hsecond
  | empty hdir next ih =>
      rcases List.append_eq_cons_iff.1 hall with ⟨rfl, rfl⟩ | ⟨steps, rfl, hrest⟩
      · exact ⟨_, _, .done, .empty hdir next⟩
      · obtain ⟨between, mid, hto, hfrom⟩ := ih hrest.symm
        exact ⟨between, mid, .empty hdir hto, hfrom⟩
  | stay hdir hsearch next ih =>
      rcases List.append_eq_cons_iff.1 hall with ⟨rfl, rfl⟩ | ⟨steps, rfl, hrest⟩
      · exact ⟨_, _, .done, .stay hdir hsearch next⟩
      · obtain ⟨between, mid, hto, hfrom⟩ := ih hrest.symm
        exact ⟨between, mid, .stay hdir hsearch hto, hfrom⟩
  | up hdir hsearch next ih =>
      rcases List.append_eq_cons_iff.1 hall with ⟨rfl, rfl⟩ | ⟨steps, rfl, hrest⟩
      · exact ⟨_, _, .done, .up hdir hsearch next⟩
      · obtain ⟨between, mid, hto, hfrom⟩ := ih hrest.symm
        exact ⟨between, mid, .up hdir hsearch hto, hfrom⟩
  | enter hdir hsearch hopen hnode hlink next ih =>
      rcases List.append_eq_cons_iff.1 hall with ⟨rfl, rfl⟩ | ⟨steps, rfl, hrest⟩
      · exact ⟨_, _, .done, .enter hdir hsearch hopen hnode hlink next⟩
      · obtain ⟨between, mid, hto, hfrom⟩ := ih hrest.symm
        refine ⟨between, mid, .enter hdir hsearch (by simp) hnode (fun target htarget => ?_) hto,
          hfrom⟩
        have hnil := (hlink target htarget).2
        rw [hrest, List.append_eq_nil_iff] at hnil
        exact absurd hnil.2 hsecond
  | follow hdir hsearch hopen hnode hlink next ih =>
      rcases List.append_eq_cons_iff.1 hall with ⟨rfl, rfl⟩ | ⟨steps, rfl, hrest⟩
      · exact ⟨_, _, .done, .follow hdir hsearch hopen hnode hlink next⟩
      · obtain ⟨between, mid, hto, hfrom⟩ := ih (by rw [List.append_assoc, hrest])
        exact ⟨between, mid, .follow hdir hsearch (by simp) hnode (by simp) hto, hfrom⟩

/-- A way to a place and a way from it make one way. -/
theorem join {between : Nat} {mid : Place} {first second : List Bytes} (hsecond : second ≠ [])
    (hpurpose : purpose ≠ .write) (hto : Leads root actor .reach links here first between mid)
    (hfrom : Leads root actor purpose between mid second left place) :
    Leads root actor purpose links here (first ++ second) left place := by
  induction hto with
  | done => exact hfrom
  | empty hdir _ ih => exact .empty hdir (ih hfrom)
  | stay hdir hsearch _ ih => exact .stay hdir hsearch (ih hfrom)
  | up hdir hsearch _ ih => exact .up hdir hsearch (ih hfrom)
  | enter hdir hsearch _ hnode hlink _ ih =>
      refine .enter hdir hsearch (fun hopen => hpurpose hopen.1) hnode (fun target htarget => ?_)
        (ih hfrom)
      exact absurd (hlink target htarget).1 (by simp)
  | follow hdir hsearch _ hnode _ _ ih =>
      refine .follow hdir hsearch (fun hopen => hpurpose hopen.1) hnode (Or.inr ?_) ?_
      · simp [hsecond]
      · have hnext := ih hfrom
        rw [List.append_assoc] at hnext
        exact hnext

/-- A dot at the end stays in a directory that may be searched. -/
theorem of_concat_dot (h : Leads root actor .reach links here (steps ++ [dot]) left place) :
    Leads root actor .reach links here steps left place ∧
      ∃ rights entries, root.at? place = some (.directory rights entries) ∧
        actor.may rights.search = true := by
  obtain ⟨between, holder, hto, hfrom⟩ := h.split (by simp)
  generalize hlast : [dot] = last at hfrom
  cases hfrom with
  | done => cases hlast
  | empty => simp [dot] at hlast
  | stay hdir hsearch next =>
      obtain ⟨-, rfl⟩ := List.cons.inj hlast
      cases next
      exact ⟨hto, _, _, hdir, hsearch⟩
  | up => simp [dot, dotDot] at hlast
  | @enter _ _ _ _ _ _ _ name => exact absurd (List.cons.inj hlast).1.symm name.proper.2.1
  | @follow _ _ _ _ _ _ _ name => exact absurd (List.cons.inj hlast).1.symm name.proper.2.1

/-- From the directory that holds an entry, its name leads to it. -/
theorem concat_of_holder {name : Name} {node : Node} {holder : Place}
    (hnode : root.at? (holder ++ [name]) = some node)
    (h : Leads root actor .reach links here (steps ++ [dot]) left holder) :
    Leads root actor .look links here (steps ++ [name.bytes]) left (holder ++ [name]) := by
  obtain ⟨hto, rights, entries, hdir, hsearch⟩ := h.of_concat_dot
  exact hto.join (by simp) (by simp) (.enter hdir hsearch (by simp) hnode (by simp) .done)

/-- What can be reached can be looked at: it is the node that is reached, or a link. -/
theorem look_of_reach (h : Leads root actor .reach links here steps left place) :
    ∃ remaining seen, Leads root actor .look links here steps remaining seen ∧
      (seen = place ∨ ∃ target, root.at? seen = some (.link target)) := by
  induction h with
  | done => exact ⟨_, _, .done, Or.inl rfl⟩
  | empty hdir _ ih =>
      obtain ⟨remaining, seen, hseen, hwhich⟩ := ih
      exact ⟨remaining, seen, .empty hdir hseen, hwhich⟩
  | stay hdir hsearch _ ih =>
      obtain ⟨remaining, seen, hseen, hwhich⟩ := ih
      exact ⟨remaining, seen, .stay hdir hsearch hseen, hwhich⟩
  | up hdir hsearch _ ih =>
      obtain ⟨remaining, seen, hseen, hwhich⟩ := ih
      exact ⟨remaining, seen, .up hdir hsearch hseen, hwhich⟩
  | enter hdir hsearch _ hnode hlink _ ih =>
      obtain ⟨remaining, seen, hseen, hwhich⟩ := ih
      refine ⟨remaining, seen, .enter hdir hsearch (by simp) hnode (fun target htarget => ?_) hseen,
        hwhich⟩
      exact absurd (hlink target htarget).1 (by simp)
  | @follow links left here place rest rights entries name target hdir hsearch _ hnode _ _ ih =>
      by_cases hrest : rest = []
      · subst hrest
        exact ⟨_, here ++ [name], .enter hdir hsearch (by simp) hnode (by simp) .done,
          Or.inr ⟨target, hnode⟩⟩
      · obtain ⟨remaining, seen, hseen, hwhich⟩ := ih
        exact ⟨remaining, seen, .follow hdir hsearch (by simp) hnode (Or.inr hrest) hseen, hwhich⟩

/-- Names along which there are no links lead to the place that they spell. -/
theorem spelled (h : Leads root actor purpose links here steps left place)
    (hnames : ∀ step ∈ steps, Path.isIdle step = false ∧ step ≠ dotDot)
    (hstraight : ∀ names target, names.map (·.bytes) <+: steps →
      (purpose = .look → names.map (·.bytes) ≠ steps) →
      root.at? (here ++ names) ≠ some (.link target)) :
    place.map (·.bytes) = here.map (·.bytes) ++ steps := by
  induction h with
  | done => simp
  | empty => exact absurd (hnames [] (by simp)).1 (by simp [Path.isIdle])
  | stay => exact absurd (hnames dot (by simp)).1 (by simp [Path.isIdle])
  | up => exact absurd rfl (hnames dotDot (by simp)).2
  | @enter links left here place rest rights entries name node hdir _ _ hnode hlink _ ih =>
      rw [ih (fun step hstep => hnames step (by simp [hstep])) ?_]
      · simp
      · intro names target hprefix hlast
        have hnext := hstraight (name :: names) target (by simpa using hprefix)
          (fun hlook => by simpa using hlast hlook)
        simpa using hnext
  | @follow links left here place rest rights entries name target hdir _ _ hnode hlink _ ih =>
      refine absurd hnode (hstraight [name] target (by simp) fun hlook => ?_)
      simpa using (hlink.resolve_left fun hne => hne hlook).symm

end Leads

/-! ## Paths that lead nowhere -/

/-- A step of the way names nothing. -/
def Missing (result : Except Fault Landing) : Prop :=
  result = .error .notFound ∨ ∃ holder name, result = .ok (.vacant holder name)

/-- A way with a missing step misses its first name, or a later one, unless it turns off at a
link. -/
theorem Missing.step {root : Node} {actor : Actor} {purpose : Purpose} {links : Nat}
    {here : Place} {name : Name} {rest : List Bytes} (hpurpose : purpose ≠ .write)
    (h : Missing (walk root actor purpose links here (name.bytes :: rest))) :
    root.at? (here ++ [name]) = none ∨
      (∃ target, root.at? (here ++ [name]) = some (.link target) ∧
        (purpose = .look → rest ≠ [])) ∨
      Missing (walk root actor purpose links (here ++ [name]) rest) := by
  obtain ⟨hempty, hdot, hdotDot, -⟩ := name.proper
  rw [Missing, walk] at h
  cases hhere : root.at? here with
  | none => exact Or.inl (at?_append_eq_none hhere [name])
  | some node =>
      cases node with
      | file rights content => simp [hhere] at h
      | link target => simp [hhere] at h
      | directory rights entries =>
          rw [at?_concat hhere name]
          simp only [hhere, hempty, hdot, hdotDot, if_false, Name.ofBytes?_bytes, hpurpose] at h
          split at h
          · simp at h
          · cases hlookup : entries.lookup name with
            | none => exact Or.inl rfl
            | some node =>
                cases node with
                | file rights content => exact Or.inr (Or.inr (by simpa [Missing, hlookup] using h))
                | directory rights held => exact Or.inr (Or.inr (by simpa [Missing, hlookup] using h))
                | link target =>
                    refine Or.inr (Or.inl ⟨target, rfl, fun hlook hrest => ?_⟩)
                    simp [hlookup, hlook, hrest] at h

/-- Where names along which there are no links lead nowhere there is nothing. A dot at the end asks
for a directory there. -/
theorem at?_eq_none_of_missing {root : Node} {actor : Actor} {purpose : Purpose} {links : Nat}
    {here : Place} {names : Place} {tail : List Bytes} (htail : tail = [] ∨ tail = [dot])
    (hpurpose : purpose ≠ .write)
    (hstraight : ∀ front target, front <+: names → (purpose = .look → tail = [] → front ≠ names) →
      root.at? (here ++ front) ≠ some (.link target))
    (h : Missing (walk root actor purpose links here (names.map (·.bytes) ++ tail))) :
    root.at? (here ++ names) = none := by
  induction names generalizing here with
  | nil =>
      rw [List.map_nil, List.nil_append] at h
      rw [List.append_nil]
      rcases htail with rfl | rfl
      · simp [Missing, walk] at h
      · rw [Missing, walk] at h
        cases hhere : root.at? here with
        | none => rfl
        | some node =>
            cases node with
            | file rights content => simp [hhere] at h
            | link target => simp [hhere] at h
            | directory rights entries =>
                by_cases hsearch : actor.may rights.search = true <;>
                  simp [hhere, hsearch, dot, walk] at h
  | cons name names ih =>
      rw [List.append_cons]
      rcases Missing.step hpurpose h with hnone | ⟨target, hlink, hrest⟩ | hmissing
      · exact at?_append_eq_none hnone names
      · refine absurd hlink (hstraight [name] target (by simp) fun hlook hnil heq => ?_)
        have hnames : names = [] := by simpa using heq.symm
        exact hrest hlook (by simp [hnil, hnames])
      · refine ih (fun front target hfront hlast => ?_) hmissing
        rw [← List.append_cons]
        exact hstraight (name :: front) target (by simpa using hfront)
          fun hlook hnil => by simpa using hlast hlook hnil

end Sweep.Disk
