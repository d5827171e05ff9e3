import GraphSplice.Proofs.Wiring.Contraction

/-!
Merging members into representatives, one member, one class and one list of disjoint classes at a
time. Each stage redirects the ends of wires, and takes the merged joints away.
-/

namespace GraphSplice.Wiring

theorem redirect_le {source target : Nat} (le : target ≤ source) (j : Nat) :
    redirect source target j ≤ j := by
  unfold redirect
  split
  · next h => omega
  · exact Nat.le_refl j

theorem Ends.map_redirect_of_not_touches {x : Ends Nat} {source target : Nat}
    (away : ¬ x.Touches source) : x.map (redirect source target) = x := by
  obtain ⟨a, b⟩ := x
  simp only [Ends.Touches, not_or] at away
  simp [Ends.map, redirect, away]

theorem Ends.map_redirect_redirect {x : Ends Nat} {source target : Nat}
    (different : target ≠ source) :
    (x.map (redirect source target)).map (redirect source target) =
      x.map (redirect source target) := by
  obtain ⟨a, b⟩ := x
  simp only [Ends.map, redirect, Ends.mk.injEq]
  constructor <;> split <;> simp_all

theorem joins_redirect {x : Ends Nat} {source target other : Nat} (joins : x.Joins source other)
    (different : other ≠ source) : (x.map (redirect source target)).Joins target other := by
  have mapped := joins.map (redirect source target)
  simpa [redirect, different] using mapped

/-! ## One member -/

/-- The representative and the members of a class. -/
def InClass (rep : JointId) (members : List JointId) (j : JointId) : Prop :=
  j = rep ∨ j ∈ members

/-- A wire between the member and `other` is dropped beside a wire of the representative, or
moved to it. -/
structure Inherited (rep member other : JointId) (e : WireId) (wire : Wire) (w w' : Wiring) :
    Prop where
  others : ∀ f, f ≠ e → w'.wire? f = w.wire? f
  handled : (w'.wire? e = none ∧ ∃ f found, w.wire? f = some found ∧ found.ends.Joins rep other) ∨
    (w'.wire? e = some ⟨wire.ends.map (redirect member rep), wire.kind⟩ ∧
      ∀ f found, w.wire? f = some found → ¬ found.ends.Joins rep other)

section Inherit

variable {w w₁ w' : Wiring} {rep member other : JointId} {members : List JointId} {e : WireId}
  {wire : Wire}

theorem inherit_eq (outside : ¬ InClass rep members other) (h : w.wire? e = some wire)
    (joins : wire.ends.Joins member other) : inherit rep members member w e =
      if w.Adjacent rep other then w.removeWire e else w.moveWire e member rep := by
  have across : w.opposite? e member = some other := by
    simp [opposite?, h, Ends.opposite?_eq_some_iff.mpr joins]
  simp only [InClass, not_or] at outside
  simp [inherit, across, outside.1, outside.2]

theorem inherit_spec (sound : w.Sound) (outside : ¬ InClass rep members other)
    (hm : member ∈ members) (different : rep ≠ member) (sort : w.SameSort rep member)
    (h : w.wire? e = some wire) (joins : wire.ends.Joins member other) :
    (inherit rep members member w e).Sound ∧
      (∀ j, (inherit rep members member w e).kind? j = w.kind? j) ∧
      Inherited rep member other e wire w (inherit rep members member w e) := by
  have otherNe : other ≠ member := by
    rintro rfl
    exact outside (.inr hm)
  have otherNeRep : other ≠ rep := by
    rintro rfl
    exact outside (.inl rfl)
  rw [inherit_eq outside h joins]
  by_cases adjacent : w.Adjacent rep other
  · rw [if_pos adjacent]
    refine ⟨sound.removeWire e, kind?_removeWire w e, ?_, .inl ⟨?_, ?_⟩⟩
    · intro f hf
      simp [wire?_removeWire, hf]
    · simp [wire?_removeWire]
    · exact (adjacent_iff sound).mp adjacent
  · rw [if_neg adjacent]
    rw [adjacent_iff sound] at adjacent
    refine ⟨sound.moveWire h joins (Ne.symm different) otherNe otherNeRep sort,
      kind?_moveWire w e member rep, ?_, .inr ⟨?_, ?_⟩⟩
    · intro f hf
      simp [wire?_moveWire, hf]
    · simp [wire?_moveWire, h]
    · intro f found here joined
      exact adjacent ⟨f, found, here, joined⟩

theorem Inherited.origin (step : Inherited rep member other e wire w w₁)
    (h : w.wire? e = some wire) {f : WireId} {x : Wire} (hx : w₁.wire? f = some x) :
    (f ≠ e ∧ w.wire? f = some x) ∨
      (f = e ∧ x = ⟨wire.ends.map (redirect member rep), wire.kind⟩) := by
  by_cases hf : f = e
  · subst hf
    rcases step.handled with ⟨gone, -⟩ | ⟨there, -⟩
    · rw [gone] at hx
      cases hx
    · rw [there] at hx
      cases hx
      exact .inr ⟨rfl, rfl⟩
  · rw [step.others f hf] at hx
    exact .inl ⟨hf, hx⟩

/-- If the wire is dropped, the one beside it stands for it. -/
theorem Inherited.cover (step : Inherited rep member other e wire w w₁)
    (h : w.wire? e = some wire) (joins : wire.ends.Joins member other) (different : rep ≠ member)
    (otherNe : other ≠ member) (otherNeRep : other ≠ rep)
    (rest : Redirects (redirect member rep) w₁ w') :
    ∃ f z, w'.wire? f = some z ∧
      z.ends.Joins (redirect member rep wire.ends.first) (redirect member rep wire.ends.second) := by
  rcases step.handled with ⟨-, g, found, here, joined⟩ | ⟨there, -⟩
  · have hg : g ≠ e := by
      rintro rfl
      rw [h] at here
      cases here
      rcases joins.eq_of_touches joined.touches.1 with same | same
      · exact different same
      · exact otherNeRep same.symm
    obtain ⟨k, z, hz, covered⟩ := rest.cover g found (by rw [step.others g hg, here])
    have still : found.ends.map (redirect member rep) = found.ends := by
      apply Ends.map_redirect_of_not_touches
      intro touches
      rcases joined.eq_of_touches touches with same | same
      · exact different same.symm
      · exact otherNe same.symm
    have ends : found.ends.Joins (redirect member rep found.ends.first)
        (redirect member rep found.ends.second) := .inl still.symm
    exact ⟨k, z, hz, (joins_redirect joins otherNe).of_parallel (Ends.joins_self _)
      (ends.of_parallel joined covered)⟩
  · obtain ⟨k, z, hz, covered⟩ := rest.cover e _ there
    refine ⟨k, z, hz, ?_⟩
    have twice := Ends.map_redirect_redirect (x := wire.ends) different
    simp only [Ends.map, Ends.mk.injEq] at twice covered
    rw [twice.1, twice.2] at covered
    exact covered

/-- One wire handed on and then all the others make one redirection. -/
theorem Inherited.redirects (step : Inherited rep member other e wire w w₁)
    (h : w.wire? e = some wire) (joins : wire.ends.Joins member other) (different : rep ≠ member)
    (otherNe : other ≠ member) (otherNeRep : other ≠ rep)
    (rest : Redirects (redirect member rep) w₁ w') : Redirects (redirect member rep) w w' := by
  have sent : (wire.ends.map (redirect member rep)).Joins rep other := joins_redirect joins otherNe
  refine { origin := ?origin, cover := ?cover, keep := ?keep, single := ?single }
  case origin =>
    intro f z hz
    obtain ⟨x, hx, rfl⟩ := rest.origin f z hz
    rcases step.origin h hx with ⟨-, hy⟩ | ⟨rfl, rfl⟩
    · exact ⟨x, hy, rfl⟩
    · exact ⟨wire, h, by rw [Ends.map_redirect_redirect different]⟩
  case cover =>
    intro f y hy
    by_cases hf : f = e
    · subst hf
      rw [h] at hy
      cases hy
      exact step.cover h joins different otherNe otherNeRep rest
    · exact rest.cover f y (by rw [step.others f hf, hy])
  case keep =>
    intro f y hy fixed
    have hf : f ≠ e := by
      rintro rfl
      rw [h] at hy
      cases hy
      rw [fixed] at sent
      rcases joins.eq_of_touches sent.touches.1 with same | same
      · exact different same
      · exact otherNeRep same.symm
    exact rest.keep f y (by rw [step.others f hf, hy]) fixed
  case single =>
    intro f g x y a b hfg hx hy joinsX joinsY
    have first := rest.single f g x y a b hfg hx hy joinsX joinsY
    have second := rest.single g f y x a b hfg.symm hy hx joinsY joinsX
    rcases step.origin h first with ⟨-, found⟩ | ⟨rfl, rfl⟩
    · exact found
    · rcases step.handled with ⟨gone, -⟩ | ⟨-, alone⟩
      · rw [gone] at first
        cases first
      · rw [step.others g hfg.symm] at second
        exact absurd (joinsX.of_parallel sent joinsY) (alone g y second)

/-- One wire fewer touches the member. -/
theorem Inherited.touches_iff (step : Inherited rep member other e wire w w₁)
    (h : w.wire? e = some wire) (joins : wire.ends.Joins member other) (different : rep ≠ member)
    (otherNe : other ≠ member) (f : WireId) :
    (∃ x, w₁.wire? f = some x ∧ x.ends.Touches member) ↔
      f ≠ e ∧ ∃ x, w.wire? f = some x ∧ x.ends.Touches member := by
  constructor
  · rintro ⟨x, hx, touched⟩
    rcases step.origin h hx with ⟨apart, hy⟩ | ⟨rfl, rfl⟩
    · exact ⟨apart, x, hy, touched⟩
    · rcases (joins_redirect joins otherNe).eq_of_touches touched with same | same
      · exact absurd same.symm different
      · exact absurd same.symm otherNe
  · rintro ⟨apart, x, hx, touched⟩
    exact ⟨x, (step.others f apart).trans hx, touched⟩

end Inherit

theorem SameSort.congr {w w' : Wiring} {a b : JointId} (sort : w.SameSort a b)
    (first : w'.kind? a = w.kind? a) (second : w'.kind? b = w.kind? b) : w'.SameSort a b := by
  simp only [SameSort, isNode_congr first, isSocket_congr first, isNode_congr second,
    isSocket_congr second]
  exact sort

/-- Redirection into the class brings no wire inside it. -/
theorem Apart.of_redirected {w w' : Wiring} {S : JointId → Prop} {q : Nat → Nat}
    (apart : w.Apart S) (inside : ∀ j, S (q j) → S j)
    (origin : ∀ e x, w'.wire? e = some x → ∃ y, w.wire? e = some y ∧
      (x.ends = y.ends ∨ x.ends = y.ends.map q)) : w'.Apart S := by
  intro e x hx both
  obtain ⟨y, hy, same | same⟩ := origin e x hx
  · rw [same] at both
    exact apart e y hy both
  · rw [same] at both
    exact apart e y hy ⟨inside _ both.1, inside _ both.2⟩

theorem Apart.of_redirects {w w' : Wiring} {S : JointId → Prop} {q : Nat → Nat}
    (apart : w.Apart S) (inside : ∀ j, S (q j) → S j) (redirects : Redirects q w w') :
    w'.Apart S := by
  refine apart.of_redirected inside ?_
  intro e x hx
  obtain ⟨y, hy, rfl⟩ := redirects.origin e x hx
  exact ⟨y, hy, .inr rfl⟩

theorem InClass.of_redirect {rep member : JointId} {members : List JointId} (hm : member ∈ members)
    (j : JointId) (h : InClass rep members (redirect member rep j)) : InClass rep members j := by
  unfold redirect at h
  split at h
  · next same => exact .inr (same ▸ hm)
  · exact h

/-- All wires of the member are handed on. The induction is on the wires still to be handed on:
they are exactly those that still touch the member. -/
theorem inherits_spec {rep member : JointId} {members : List JointId} (hm : member ∈ members)
    (different : rep ≠ member) (wires : List WireId) :
    ∀ w : Wiring, w.Sound → w.Apart (InClass rep members) → w.SameSort rep member →
      wires.Nodup →
      (∀ e, e ∈ wires ↔ ∃ wire, w.wire? e = some wire ∧ wire.ends.Touches member) →
      (wires.foldl (inherit rep members member) w).Sound ∧
        (∀ j, (wires.foldl (inherit rep members member) w).kind? j = w.kind? j) ∧
        (∀ e wire, (wires.foldl (inherit rep members member) w).wire? e = some wire →
          ¬ wire.ends.Touches member) ∧
        Redirects (redirect member rep) w (wires.foldl (inherit rep members member) w) := by
  induction wires with
  | nil =>
    intro w sound apart sort nodup touching
    have away : ∀ e wire, w.wire? e = some wire → ¬ wire.ends.Touches member := by
      intro e wire h touches
      have listed := (touching e).mpr ⟨wire, h, touches⟩
      cases listed
    exact ⟨sound, fun _ => rfl, away,
      .of_fixed fun e wire h => Ends.map_redirect_of_not_touches (away e wire h)⟩
  | cons e rest ih =>
    intro w sound apart sort nodup touching
    obtain ⟨wire, h, touches⟩ := (touching e).mp List.mem_cons_self
    obtain ⟨other, joins⟩ := touches.joins
    have outside : ¬ InClass rep members other := fun inside =>
      apart.not_joins h (.inr hm) inside joins
    have otherNe : other ≠ member := fun same => outside (.inr (same ▸ hm))
    have otherNeRep : other ≠ rep := fun same => outside (.inl same)
    obtain ⟨sound₁, kinds₁, step⟩ := inherit_spec sound outside hm different sort h joins
    have apart₁ : (inherit rep members member w e).Apart (InClass rep members) := by
      refine apart.of_redirected (InClass.of_redirect hm) ?_
      intro f x hx
      rcases step.origin h hx with ⟨-, hy⟩ | ⟨rfl, rfl⟩
      · exact ⟨x, hy, .inl rfl⟩
      · exact ⟨wire, h, .inr rfl⟩
    obtain ⟨fresh, nodup'⟩ := List.nodup_cons.mp nodup
    have touching₁ : ∀ f, f ∈ rest ↔
        ∃ x, (inherit rep members member w e).wire? f = some x ∧ x.ends.Touches member := by
      intro f
      rw [step.touches_iff h joins different otherNe, ← touching, List.mem_cons]
      constructor
      · intro hf
        exact ⟨fun same => fresh (same ▸ hf), .inr hf⟩
      · rintro ⟨apart, first | later⟩
        · exact absurd first apart
        · exact later
    obtain ⟨sound', kinds', away, redirects⟩ :=
      ih _ sound₁ apart₁ (sort.congr (kinds₁ _) (kinds₁ _)) nodup' touching₁
    rw [List.foldl_cons]
    exact ⟨sound', fun j => (kinds' j).trans (kinds₁ j), away,
      step.redirects h joins different otherNe otherNeRep redirects⟩

theorem absorb_spec {w : Wiring} {rep member : JointId} {members : List JointId} (sound : w.Sound)
    (apart : w.Apart (InClass rep members)) (hm : member ∈ members) (different : rep ≠ member)
    (sort : w.SameSort rep member) :
    (absorb rep members w member).Sound ∧
      (∀ j, (absorb rep members w member).kind? j = if j = member then none else w.kind? j) ∧
      Redirects (redirect member rep) w (absorb rep members w member) := by
  have live : w.IsLive member := by
    rcases sort with ⟨-, node⟩ | ⟨-, socket⟩
    · exact node.isLive
    · exact socket.isLive
  have nodup : (w.incident member).Nodup :=
    sound.nodup_incident fun e wire h => apart.not_joins h (.inr hm) (.inr hm)
  obtain ⟨sound', kinds, away, redirects⟩ := inherits_spec hm different (w.incident member) w sound
    apart sort nodup (fun e => sound.mem_incident_iff)
  have unfolded : absorb rep members w member =
      ((w.incident member).foldl (inherit rep members member) w).removeJoint member := by
    simp [absorb, Ne.symm different, live]
  have wires : ∀ e, (absorb rep members w member).wire? e =
      ((w.incident member).foldl (inherit rep members member) w).wire? e := by
    intro e
    rw [unfolded]
    apply Option.ext
    intro wire
    rw [wire?_removeJoint sound']
    exact ⟨fun h => h.1, fun h => ⟨h, away e wire h⟩⟩
  refine ⟨?_, ?_, redirects.congr_wires wires⟩
  · rw [unfolded]
    exact sound'.removeJoint member
  · intro j
    rw [unfolded, kind?_removeJoint, kinds]

/-! ## One class -/

/-- Where a class sends its members. -/
def gather (rep : Nat) (members : List Nat) (j : Nat) : Nat := if j ∈ members then rep else j

theorem gather_le {rep : Nat} {members : List Nat} (le : ∀ m ∈ members, rep ≤ m) (j : Nat) :
    gather rep members j ≤ j := by
  unfold gather
  split
  · next h => exact le j h
  · exact Nat.le_refl j

theorem absorbs_spec {rep : JointId} {members : List JointId} (le : ∀ m ∈ members, rep ≤ m)
    (todo : List JointId) :
    ∀ w : Wiring, w.Sound → w.Apart (InClass rep members) → todo ⊆ members → todo.Nodup →
      (∀ m ∈ todo, w.SameSort rep m) →
      (todo.foldl (absorb rep members) w).Sound ∧
        (∀ j, (todo.foldl (absorb rep members) w).kind? j =
          if j ∈ todo ∧ j ≠ rep then none else w.kind? j) ∧
        Redirects (gather rep todo) w (todo.foldl (absorb rep members) w) := by
  induction todo with
  | nil =>
    intro w sound _ _ _ _
    exact ⟨sound, by simp, (Redirects.refl w).congr fun j => by simp [gather]⟩
  | cons m rest ih =>
    intro w sound apart subset nodup sorts
    have hm : m ∈ members := subset List.mem_cons_self
    have subset' : rest ⊆ members := fun x hx => subset (List.mem_cons_of_mem _ hx)
    obtain ⟨fresh, nodup'⟩ := List.nodup_cons.mp nodup
    have sorts' : ∀ x ∈ rest, w.SameSort rep x := fun x hx => sorts x (List.mem_cons_of_mem _ hx)
    rw [List.foldl_cons]
    by_cases own : m = rep
    · have skipped : absorb rep members w m = w := by simp [absorb, own]
      rw [skipped]
      obtain ⟨sound', kinds, redirects⟩ := ih w sound apart subset' nodup' sorts'
      refine ⟨sound', ?_, redirects.congr ?_⟩
      · intro j
        rw [kinds]
        by_cases hj : j = rep <;> simp [hj, own]
      · intro j
        by_cases hj : j = rep <;> simp [gather, hj, own]
    · have different : rep ≠ m := fun h => own h.symm
      obtain ⟨sound₁, kinds₁, redirects₁⟩ :=
        absorb_spec sound apart hm different (sorts m List.mem_cons_self)
      have apart₁ := apart.of_redirects (InClass.of_redirect hm) redirects₁
      have sorts₁ : ∀ x ∈ rest, (absorb rep members w m).SameSort rep x := by
        intro x hx
        have other : x ≠ m := fun same => fresh (same ▸ hx)
        refine (sorts' x hx).congr ?_ ?_
        · rw [kinds₁, if_neg different]
        · rw [kinds₁, if_neg other]
      obtain ⟨sound', kinds, redirects⟩ := ih _ sound₁ apart₁ subset' nodup' sorts₁
      refine ⟨sound', ?_, ?_⟩
      · intro j
        rw [kinds, kinds₁]
        by_cases hj : j = m
        · simp [hj, fresh, own]
        · simp [hj]
      · refine (redirects₁.trans redirects (redirect_le (le m hm))
          (gather_le fun x hx => le x (subset' hx))).congr ?_
        intro j
        by_cases hj : j = m
        · subst hj
          simp [redirect, gather]
        · simp [redirect, gather, hj]

/-- What makes a list of members a class with its representative. -/
structure IsClass (w : Wiring) (rep : JointId) (members : List JointId) : Prop where
  nodup : members.Nodup
  le : ∀ m ∈ members, rep ≤ m
  sort : ∀ m ∈ members, w.SameSort rep m
  apart : w.Apart (InClass rep members)

theorem contract_spec {w : Wiring} {rep : JointId} {members : List JointId} (sound : w.Sound)
    (cls : w.IsClass rep members) :
    (w.contract rep members).Sound ∧
      (∀ j, (w.contract rep members).kind? j =
        if j ∈ members ∧ j ≠ rep then none else w.kind? j) ∧
      Redirects (gather rep members) w (w.contract rep members) :=
  absorbs_spec cls.le members w sound cls.apart (fun _ h => h) cls.nodup cls.sort

/-! ## Disjoint classes -/

/-- Where a list of classes sends a joint. -/
def gatherAll : List (Nat × List Nat) → Nat → Nat
  | [], j => j
  | c :: rest, j => if j ∈ c.2 then c.1 else gatherAll rest j

theorem gatherAll_le {classes : List (Nat × List Nat)} (le : ∀ c ∈ classes, ∀ m ∈ c.2, c.1 ≤ m)
    (j : Nat) : gatherAll classes j ≤ j := by
  induction classes with
  | nil => exact Nat.le_refl j
  | cons c rest ih =>
    unfold gatherAll
    split
    · next h => exact le c List.mem_cons_self j h
    · exact ih fun d hd => le d (List.mem_cons_of_mem _ hd)

theorem gatherAll_eq_self {classes : List (Nat × List Nat)} {j : Nat}
    (h : ∀ c ∈ classes, j ∉ c.2) : gatherAll classes j = j := by
  induction classes with
  | nil => rfl
  | cons c rest ih =>
    simp only [gatherAll, h c List.mem_cons_self, if_false]
    exact ih fun d hd => h d (List.mem_cons_of_mem _ hd)

/-- No joint is in two classes. -/
def DisjointClasses (classes : List (Nat × List Nat)) : Prop :=
  classes.Pairwise fun c d => ∀ j, InClass c.1 c.2 j → ¬ InClass d.1 d.2 j

theorem IsClass.contract {w : Wiring} {rep rep' : JointId} {members members' : List JointId}
    (other : w.IsClass rep' members') (sound : w.Sound) (cls : w.IsClass rep members)
    (disjoint : ∀ j, InClass rep members j → ¬ InClass rep' members' j) :
    (w.contract rep members).IsClass rep' members' := by
  obtain ⟨-, kinds, redirects⟩ := contract_spec sound cls
  have same : ∀ j, InClass rep' members' j → (w.contract rep members).kind? j = w.kind? j := by
    intro j hj
    rw [kinds, if_neg]
    rintro ⟨inside, -⟩
    exact disjoint j (.inr inside) hj
  refine ⟨other.nodup, other.le, ?_, other.apart.of_redirects ?_ redirects⟩
  · intro m hm
    exact (other.sort m hm).congr (same _ (.inl rfl)) (same m (.inr hm))
  · intro j hj
    unfold gather at hj
    split at hj
    · exact absurd hj (disjoint rep (.inl rfl))
    · exact hj

theorem contractAll_spec (classes : List (JointId × List JointId)) :
    ∀ w : Wiring, w.Sound → (∀ c ∈ classes, w.IsClass c.1 c.2) → DisjointClasses classes →
      (classes.foldl (fun w c => w.contract c.1 c.2) w).Sound ∧
        (∀ j, (classes.foldl (fun w c => w.contract c.1 c.2) w).kind? j =
          if gatherAll classes j = j then w.kind? j else none) ∧
        Redirects (gatherAll classes) w (classes.foldl (fun w c => w.contract c.1 c.2) w) := by
  induction classes with
  | nil =>
    intro w sound _ _
    exact ⟨sound, by simp [gatherAll], (Redirects.refl w).congr fun j => rfl⟩
  | cons c rest ih =>
    intro w sound classes disjoint
    obtain ⟨apartFrom, disjoint'⟩ := List.pairwise_cons.mp disjoint
    have cls := classes c List.mem_cons_self
    obtain ⟨sound₁, kinds₁, redirects₁⟩ := contract_spec sound cls
    have repAway : ∀ d ∈ rest, c.1 ∉ d.2 := fun d hd h => apartFrom d hd c.1 (.inl rfl) (.inr h)
    have classes₁ : ∀ d ∈ rest, (w.contract c.1 c.2).IsClass d.1 d.2 := fun d hd =>
      (classes d (List.mem_cons_of_mem _ hd)).contract sound cls (apartFrom d hd)
    obtain ⟨sound', kinds, redirects⟩ := ih _ sound₁ classes₁ disjoint'
    have composed : ∀ j, gatherAll rest (gather c.1 c.2 j) = gatherAll (c :: rest) j := by
      intro j
      unfold gather
      by_cases hj : j ∈ c.2
      · simp only [gatherAll, hj, if_true]
        exact gatherAll_eq_self repAway
      · simp only [gatherAll, hj, if_false]
    rw [List.foldl_cons]
    refine ⟨sound', ?_, (redirects₁.trans redirects (gather_le cls.le)
      (gatherAll_le fun d hd => (classes d (List.mem_cons_of_mem _ hd)).le)).congr composed⟩
    intro j
    rw [kinds, kinds₁]
    by_cases hj : j ∈ c.2
    · have alone : gatherAll rest j = j :=
        gatherAll_eq_self fun d hd h => apartFrom d hd j (.inr hj) (.inr h)
      by_cases own : j = c.1
      · subst own
        simp [gatherAll, hj, alone]
      · simp [gatherAll, hj, own, alone, Ne.symm own]
    · simp [gatherAll, hj]

end GraphSplice.Wiring
