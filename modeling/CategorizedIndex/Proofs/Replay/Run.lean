import CategorizedIndex.Proofs.Replay.Trace

/-! # Following a whole batch

Every path of a row is followed from the root, and the document is added under each
parent reached. What one step of this keeps carries over to paths, rows and the batch,
so in the end every placement that the table asks for is accounted for.
-/
namespace CategorizedIndex.Replay

variable {config : Config} {t : Tree} {U : Table} {r r' : Replay} {P Q : Parent}
  {A : List Label}

def push (r : Replay) (c : PendingCategory) : Replay := { r with pending := r.pending ++ [c] }

theorem addChild_push (r : Replay) (c : PendingCategory) (P : Parent) :
    (r.push c).addChild P = (r.addChild P).push c := by
  cases P <;> rfl

theorem grown_push (t : Tree) (r : Replay) (c : PendingCategory) : Grown t r (r.push c) :=
  ⟨List.prefix_append _ _, id, fun _ => le_rfl⟩

theorem frame_addChild (r : Replay) (P : Parent) :
    (r.addChild P).pending = r.pending ∧ (r.addChild P).added = r.added ∧
      (r.addChild P).detached = r.detached := by
  cases P <;> exact ⟨rfl, rfl, rfl⟩

theorem gain_addChild (t : Tree) (r : Replay) (P : Parent) (x : EntryId) :
    gain t (r.addChild P) x = gain t r x + if P = .live x then 1 else 0 := by
  cases P with
  | live p =>
    have h := gain_grow t r p 1 x
    simp only [Parent.live.injEq]
    exact h
  | pending i =>
    have h : gain t (r.addChild (.pending i)) x = gain t r x := rfl
    rw [h, if_neg (fun heq => nomatch heq), Int.add_zero]

theorem grown_addChild (t : Tree) (r : Replay) (P : Parent) : Grown t r (r.addChild P) where
  pending := (frame_addChild r P).1 ▸ List.prefix_rfl
  noted := by
    rw [(frame_addChild r P).2.1]
    exact id
  gains x := by
    rw [gain_addChild]
    split <;> omega

theorem Traced.addChild (h : Traced config t U r)
    (hP : ∀ x, P = .live x → U.Leads (t.skeleton.address x)) :
    Traced config t U (r.addChild P) := by
  obtain ⟨hpending, hadded, -⟩ := frame_addChild r P
  constructor
  case apart => exact hpending ▸ h.apart
  case created => exact hpending ▸ h.created
  case noted =>
    rw [hpending, hadded]
    exact h.noted
  case pendingGains =>
    intro c hc x hx
    exact (h.pendingGains c (hpending ▸ hc) x hx).trans_le ((grown_addChild t r P).gains x)
  case gains =>
    intro x
    obtain ⟨hpos, hleads⟩ := h.gains x
    rw [gain_addChild]
    by_cases hx : P = .live x
    · rw [if_pos hx]
      exact ⟨by omega, fun _ => hP x hx⟩
    · rw [if_neg hx, Int.add_zero]
      exact ⟨hpos, hleads⟩
  case tidy => exact hadded ▸ h.tidy
  case values =>
    rw [hpending, hadded]
    exact h.values

theorem grown_note (t : Tree) (r : Replay) (P : Parent) (place : Place) (v : Scalar) :
    Grown t r (r.note P place v) :=
  ⟨List.prefix_rfl, Noted.noteIn, fun _ => le_rfl⟩

theorem Traced.note (h : Traced config t U r) (hP : Stands config t.skeleton r.pending P A)
    {place : Place} {v : Scalar} (hv : U.Holds A place v) :
    Traced config t U (r.note P place v) where
  apart := h.apart
  created := h.created
  noted c hc w hw := (h.noted c hc w hw).noteIn
  pendingGains := h.pendingGains
  gains := h.gains
  tidy := h.tidy.noteIn
  values a ha w hw := by
    rcases mem_noteIn ha hw with ⟨b, hb, hparent, hplace, hwb⟩ | ⟨hparent, hplace, rfl⟩
    · rw [← hparent, ← hplace]
      exact h.values b hb w hwb
    · rw [hparent, hplace]
      exact ⟨A, hP, hv⟩

/-- A category is entered once its value is noted and its parent has gained a child. -/
theorem Traced.push (h : Traced config t U r) {step : CategoryStep} (hstep : step.Fits config)
    (hP : Stands config t.skeleton r.pending P A) (hleads : U.Leads (A ++ [.category step]))
    (hnew : ⟨P, step.column, step.value⟩ ∉ r.pending)
    (habsent : ∀ x, P = .live x → ∀ y c, t.skeleton y = some c → c.parent = some x →
      c.label ≠ .category step)
    (hnoted : ∀ v, step.value = some v → Noted r.added P (.category step.column) v)
    (hgain : ∀ x, P = .live x → 0 < gain t r x) :
    Traced config t U (r.push ⟨P, step.column, step.value⟩) := by
  have hmem : ∀ c ∈ r.pending ++ [⟨P, step.column, step.value⟩],
      c ∈ r.pending ∨ c = ⟨P, step.column, step.value⟩ := fun c hc =>
    (List.mem_append.mp hc).imp_right List.mem_singleton.mp
  constructor
  case apart =>
    constructor
    · refine List.nodup_append.mpr ⟨h.apart.distinct, List.nodup_singleton _, ?_⟩
      intro a ha b hb hab
      rw [List.mem_singleton.mp hb] at hab
      exact hnew (hab ▸ ha)
    · intro x step' hc hstep' y c hy hcx
      rcases hmem _ hc with hc | heq
      · exact h.apart.absent x step' hc hstep' y c hy hcx
      · injection heq with hparent hcolumn hvalue
        rw [hstep'.eq hstep hcolumn hvalue]
        exact habsent x hparent.symm y c hy hcx
  case created =>
    intro c hc
    rcases hmem c hc with hc | rfl
    · obtain ⟨step', B, heq, hfits, hB, hleadsB⟩ := h.created c hc
      exact ⟨step', B, heq, hfits, hB.mono (List.prefix_append _ _), hleadsB⟩
    · exact ⟨step, A, rfl, hstep, hP.mono (List.prefix_append _ _), hleads⟩
  case noted =>
    intro c hc
    rcases hmem c hc with hc | rfl
    · exact h.noted c hc
    · exact hnoted
  case pendingGains =>
    intro c hc
    rcases hmem c hc with hc | rfl
    · exact h.pendingGains c hc
    · exact hgain
  case gains => exact h.gains
  case tidy => exact h.tidy
  case values =>
    intro a ha v hv
    obtain ⟨B, hB, hholds⟩ := h.values a ha v hv
    exact ⟨B, hB.mono (List.prefix_append _ _), hholds⟩

def Meant (config : Config) (U : Table) (A : List Label) (path : CategoryPath) : Prop :=
  ∀ above step rest, path = above ++ step :: rest →
    step.Fits config ∧ U.Leads (A ++ above.map .category ++ [.category step]) ∧
      ∀ v, step.value = some v → U.Holds (A ++ above.map .category) (.category step.column) v

theorem Meant.tail {step : CategoryStep} {rest : CategoryPath}
    (h : Meant config U A (step :: rest)) : Meant config U (A ++ [.category step]) rest := by
  intro above step' rest' hpath
  have hwhole := h (step :: above) step' rest' (congrArg (step :: ·) hpath)
  have haddress : A ++ (step :: above).map Label.category =
      A ++ [.category step] ++ above.map .category := by simp
  rwa [haddress] at hwhole

theorem meant_path {s : ScopedId} {placing : Placing} (hrow : U s = some placing)
    (hfits : placing.Fits config) {path : CategoryPath} (hpath : path ∈ placing.paths) :
    Meant config U [] path := by
  rintro above step rest rfl
  refine ⟨hfits.steps _ hpath step (by simp), ?_, fun v hv => .category hrow hpath hv⟩
  exact ⟨s, placing, _, hrow, hpath, Skeleton.step_prefix above rest step s⟩

/-- A path was followed to a parent from an address on. -/
structure Followed (config : Config) (t : Tree) (U : Table) (A : List Label)
    (path : CategoryPath) (r : Replay) (q : Parent × Replay) : Prop where
  traced : Traced config t U q.2
  grown : Grown t r q.2
  stands : Stands config t.skeleton q.2.pending q.1 (A ++ path.map .category)
  taken : PathTaken config t q.2 A path
  detached : q.2.detached = r.detached

/-- One step that ends at a parent is a path that was followed. -/
theorem followed_step {step : CategoryStep} {q : Parent × Replay}
    (htraced : Traced config t U q.2) (hgrown : Grown t r q.2)
    (hP : Stands config t.skeleton r.pending P A)
    (hQ : Stands config t.skeleton q.2.pending q.1 (A ++ [.category step]))
    (htaken : (∃ y, q.1 = .live y) ∨
      ∀ v, step.value = some v → Noted q.2.added P (.category step.column) v)
    (hdetached : q.2.detached = r.detached) : Followed config t U A [step] r q where
  traced := htraced
  grown := hgrown
  stands := hQ
  taken := pathTaken_cons ⟨P, q.1, hP.mono hgrown.pending, hQ, htaken⟩
    fun above step' rest' hpath => by simp at hpath
  detached := hdetached

/-- A step that finds nothing enters a category whose value is noted. -/
theorem followed_create (h : Traced config t U r) {step : CategoryStep}
    (hstep : step.Fits config) (hP : Stands config t.skeleton r.pending P A)
    (hleads : U.Leads (A ++ [.category step]))
    (hholds : ∀ v, step.value = some v → U.Holds A (.category step.column) v)
    (hnew : ⟨P, step.column, step.value⟩ ∉ r.pending)
    (habsent : ∀ x, P = .live x → ∀ y c, t.skeleton y = some c → c.parent = some x →
      c.label ≠ .category step) :
    Followed config t U A [step] r
      (.pending r.pending.length,
        let category := PendingCategory.mk P step.column step.value
        let created := { r with pending := r.pending ++ [category] }.addChild P
        match step.value with
        | some value => created.note P (.category step.column) value
        | none => created) := by
  have hleadsP : ∀ x, P = .live x → U.Leads (t.skeleton.address x) := by
    rintro x rfl
    obtain ⟨s, placing, path, hrow, hpath, hstart⟩ := hleads
    exact ⟨s, placing, path, hrow, hpath, hP.eq_address ▸ (List.prefix_append A _).trans hstart⟩
  have hchild := h.addChild hleadsP
  obtain ⟨hpending, hadded, hdetached⟩ := frame_addChild r P
  have hPchild : Stands config t.skeleton (r.addChild P).pending P A := hpending ▸ hP
  have hgain : ∀ x, P = .live x → 0 < gain t (r.addChild P) x := by
    intro x hx
    rw [gain_addChild, if_pos hx]
    have := (h.gains x).1
    omega
  have hgrown := grown_addChild t r P
  have hlast : ∀ u : Replay, u.pending = r.pending →
      Stands config t.skeleton (u.push ⟨P, step.column, step.value⟩).pending
        (.pending r.pending.length) (A ++ [.category step]) := by
    intro u hu
    refine .pending ?_ hstep ((hu ▸ hP).mono (List.prefix_append _ _))
    rw [← hu, push, List.getElem?_concat_length]
  have hcommute := addChild_push r ⟨P, step.column, step.value⟩ P
  unfold push at hcommute
  simp only [hcommute]
  split
  · next v hv =>
    have hnote := hchild.note hPchild (hholds v hv)
    have hnotegrown := grown_note t (r.addChild P) P (.category step.column) v
    have hnoted : ∀ w, step.value = some w →
        Noted ((r.addChild P).note P (.category step.column) v).added P
          (.category step.column) w := by
      intro w hw
      rw [← Option.some.inj (hv.symm.trans hw)]
      exact noted_noteIn_self
    refine followed_step ?_ ((hgrown.trans hnotegrown).trans (grown_push t _ _)) hP
      (hlast _ hpending) (Or.inr hnoted) hdetached
    exact hnote.push hstep hPchild hleads (hpending ▸ hnew) habsent hnoted hgain
  · next hv =>
    have hnull : ∀ v, step.value ≠ some v := by
      intro v hv'
      rw [hv] at hv'
      cases hv'
    refine followed_step ?_ (hgrown.trans (grown_push t _ _)) hP (hlast _ hpending)
      (Or.inr fun v hv' => absurd hv' (hnull v)) hdetached
    exact hchild.push hstep hPchild hleads (hpending ▸ hnew) habsent
      (fun v hv' => absurd hv' (hnull v)) hgain

theorem followed_findOrCreate (hs : t.Sound config) (h : Traced config t U r)
    {step : CategoryStep} (hP : Stands config t.skeleton r.pending P A)
    (hmeant : Meant config U A [step]) :
    Followed config t U A [step] r (r.findOrCreate t P step) := by
  obtain ⟨hstep, hleads, hholds⟩ := hmeant [] step [] rfl
  rw [List.map_nil, List.append_nil] at hleads hholds
  unfold findOrCreate
  cases hlive : findLive? t P step with
  | some y =>
    cases P with
    | pending i => cases hlive
    | live x =>
      obtain ⟨c, hc, hcx, hlabel⟩ := Work.findCategory?_eq_some hs hstep hlive
      refine followed_step h (.refl t r) hP ?_ (Or.inl ⟨y, rfl⟩) rfl
      rw [hP.eq_address, ← hlabel, ← hs.formed.address_eq hc hcx]
      exact .live hc (Core.isCategory_of_label hlabel)
  | none =>
    simp only
    cases hpending : r.findPending? P step with
    | some i =>
      have hi := findPending?_eq_some hpending
      have hmem := List.mem_of_getElem? hi
      exact followed_step h (.refl t r) hP (.pending hi hstep hP)
        (Or.inr fun v hv => h.noted _ hmem v hv) rfl
    | none =>
      refine followed_create h hstep hP hleads hholds (findPending?_eq_none hpending) ?_
      rintro x rfl y c hy hcx
      cases hP with
      | live hx _ => exact Work.findCategory?_eq_none hs hstep hx hlive hy hcx

theorem followed_resolve (hs : t.Sound config) (h : Traced config t U r) {path : CategoryPath}
    (hP : Stands config t.skeleton r.pending P A) (hmeant : Meant config U A path) :
    Followed config t U A path r (resolve t P path r) := by
  induction path generalizing r P A with
  | nil =>
    refine ⟨h, .refl t r, ?_, fun above step rest hpath => by simp at hpath, rfl⟩
    rw [List.map_nil, List.append_nil]
    exact hP
  | cons step rest ih =>
    have hone := followed_findOrCreate hs h hP
      fun above step' rest' hpath => by
        cases above with
        | nil =>
          obtain ⟨rfl, rfl⟩ := List.cons.inj hpath
          exact hmeant [] step rest rfl
        | cons first above => simp at hpath
    have hrest := ih hone.traced hone.stands hmeant.tail
    unfold resolve
    refine ⟨hrest.traced, hone.grown.trans hrest.grown, ?_, ?_, ?_⟩
    · have hstands := hrest.stands
      rw [List.append_assoc] at hstands
      exact hstands
    · have htaken := hone.taken [] step [] rfl
      rw [List.map_nil, List.append_nil] at htaken
      exact pathTaken_cons (htaken.mono hrest.grown) hrest.taken
    · exact hrest.detached.trans hone.detached

end CategorizedIndex.Replay
