import LearnFramework.Ecc.KeyHolder
import Mathlib.Data.List.Forall2

/-!
# Two halves

The texts of the imports set the scalar, their draws set the point, and no call carries
anything from one to the other. So of two conversations with the same texts `dumpPrivKey`
and `calcECDHKey` have the same answers, and of two with the same draws `getPubKey` and
`verifyMessage` have (`halves_independent`). Both are shown on the key holder.
-/

namespace LearnFramework.Ecc

open Machines

variable {Key Group P : Type*} [AddCommGroup P] {lib : Libcrypto Key Group P} {curve : Curve P}

/-- The same call, but for what an import draws. -/
inductive SameTexts : Method curve → Method curve → Prop
  | refl (m : Method curve) : SameTexts m m
  | importPrivKey (str : List UInt8) (d d' : curve.Scalar) :
    SameTexts (.importPrivKey str d) (.importPrivKey str d')

/-- The same call, but for the text of an import. -/
inductive SameDraws : Method curve → Method curve → Prop
  | refl (m : Method curve) : SameDraws m m
  | importPrivKey (str str' : List UInt8) (d : curve.Scalar) :
    SameDraws (.importPrivKey str d) (.importPrivKey str' d)

/-- The calls that set the key, or ask for what the scalar gives. -/
def Method.onScalar : Method curve → Bool
  | .initEccCurves _ | .importPrivKey _ _ | .dumpPrivKey | .calcECDHKey _ _ => true
  | _ => false

/-- The calls that set the key, or ask for what the point gives. -/
def Method.onPoint : Method curve → Bool
  | .initEccCurves _ | .importPrivKey _ _ | .getPubKey | .verifyMessage _ _ _ => true
  | _ => false

/-- The calls `on` go by the part `f` of a key holder alone, and calls that are `Same` do
to it the same. -/
structure Half {β : Type*} (lib : Libcrypto Key Group P) (f : KeyHolder P → β)
    (on : Method curve → Bool) (Same : Method curve → Method curve → Prop) : Prop where
  signs : ∀ m, on m = true → m.signs = false
  same_on : ∀ m m', Same m m' → on m = true → on m' = true
  initEccCurves : ∀ d m', Same (.initEccCurves d) m' → m' = .initEccCurves d
  answers : ∀ k k' m m' a, f k = f k' → Same m m' → on m = true → k.Answers lib m a →
    k'.Answers lib m' a
  step : ∀ h h' m m', h.map f = h'.map f → Same m m' → on m = true →
    (after lib h m).map f = (after lib h' m').map f
  skip : ∀ h m, on m = false → after lib h m = h

namespace Half

variable {β : Type*} {f : KeyHolder P → β} {on : Method curve → Bool}
  {Same : Method curve → Method curve → Prop}

theorem allows (half : Half lib f on Same) {h h' : Option (KeyHolder P)} {m m' : Method curve}
    {a : Answer} (hf : h.map f = h'.map f) (hsame : Same m m') (hon : on m = true)
    (ha : Allows lib h m a) : Allows lib h' m' a := by
  rcases ha with ⟨d, rfl, rfl⟩ | ⟨k, rfl, hk⟩
  · exact .inl ⟨d, half.initEccCurves d m' hsame, rfl⟩
  · cases h' with
    | none => cases hf
    | some k' => exact .inr ⟨k', rfl, half.answers k k' m m' a (Option.some.inj hf) hsame hon hk⟩

/-- Two conversations that agree on one half get the same answers from it. -/
theorem same_answers (half : Half lib f on Same) {es es' : List (Method curve × Answer)}
    {h h' : Option (KeyHolder P)} (hrun : (keyHolder lib curve).run none es = some h)
    (hrun' : (keyHolder lib curve).run none es' = some h')
    (hsame : List.Forall₂ (fun e e' => Same e.1 e'.1) (es.filter fun e => on e.1)
      (es'.filter fun e => on e.1)) :
    List.Forall₂ (fun e e' => e.2 = e'.2) (es.filter fun e => on e.1)
      (es'.filter fun e => on e.1) := by
  have hskip : ∀ h e h', on e.1 = false → (keyHolder lib curve).step h e = some h' → h' = h := by
    intro h e h' hoff hstep
    rw [← (keyHolder_step.mp hstep).2, half.skip h e.1 hoff]
  have hon : ∀ e ∈ es.filter fun e => on e.1, on e.1 = true := fun e he =>
    (List.mem_filter.mp he).2
  have hboth := (List.forall₂_and_left _ _).mpr ⟨hon, hsame⟩
  refine Machine.run_forall₂ (I := fun h h' => h.map f = h'.map f) ?_ rfl hboth
    (Machine.run_filter hskip hrun) (Machine.run_filter hskip hrun')
  rintro h h' e e' k k' hf ⟨hone, hsame⟩ hstep hstep'
  obtain ⟨hallows, rfl⟩ := keyHolder_step.mp hstep
  obtain ⟨hallows', rfl⟩ := keyHolder_step.mp hstep'
  refine ⟨half.step h h' e.1 e'.1 hf hsame hone, ?_⟩
  exact (half.allows hf hsame hone hallows).unique
    (half.signs e'.1 (half.same_on e.1 e'.1 hsame hone)) hallows'

end Half

/-- The scalar comes from the texts. -/
theorem scalarHalf :
    Half lib KeyHolder.scalar (Method.onScalar : Method curve → Bool) SameTexts where
  signs m hon := by cases m <;> first | rfl | cases hon
  same_on m m' hsame hon := by
    cases hsame with
    | refl => exact hon
    | importPrivKey => rfl
  initEccCurves d m' hsame := by
    cases hsame
    rfl
  answers k k' m m' a hf hsame hon ha := by
    cases hsame with
    | importPrivKey => exact ha
    | refl =>
      cases m with
      | initEccCurves | importPrivKey => exact ha
      | dumpPrivKey =>
        rw [KeyHolder.Answers, ← hf]
        exact ha
      | calcECDHKey =>
        rw [KeyHolder.Answers, ← hf]
        exact ha
      | _ => cases hon
  step h h' m m' hf hsame hon := by
    cases hsame with
    | importPrivKey => rfl
    | refl =>
      cases m with
      | initEccCurves | importPrivKey => rfl
      | _ => exact hf
  skip h m hoff := by
    cases m with
    | signMessage | verifyMessage | getPubKey => rfl
    | _ => cases hoff

/-- The point comes from the draws. -/
theorem pointHalf :
    Half lib KeyHolder.point (Method.onPoint : Method curve → Bool) SameDraws where
  signs m hon := by cases m <;> first | rfl | cases hon
  same_on m m' hsame hon := by
    cases hsame with
    | refl => exact hon
    | importPrivKey => rfl
  initEccCurves d m' hsame := by
    cases hsame
    rfl
  answers k k' m m' a hf hsame hon ha := by
    cases hsame with
    | importPrivKey => exact ha
    | refl =>
      cases m with
      | initEccCurves | importPrivKey => exact ha
      | verifyMessage =>
        rw [KeyHolder.Answers, ← hf]
        exact ha
      | getPubKey =>
        rw [KeyHolder.Answers, ← hf]
        exact ha
      | _ => cases hon
  step h h' m m' hf hsame hon := by
    cases hsame with
    | importPrivKey => rfl
    | refl =>
      cases m with
      | initEccCurves | importPrivKey => rfl
      | _ => exact hf
  skip h m hoff := by
    cases m with
    | dumpPrivKey | signMessage | calcECDHKey => rfl
    | _ => cases hoff

/-- **The two halves never meet.** What `dumpPrivKey` and `calcECDHKey` deliver depends on
the texts of the imports and not on their draws; what `getPubKey` and `verifyMessage`
deliver depends on the draws and not on the texts. This is so over any conversations, with
any other calls between. -/
theorem halves_independent (lib : Libcrypto Key Group P) (curve : Curve P)
    (hlib : lib.Documented curve) (hstore : StoresAny lib)
    (es es' : List (Method curve × Answer)) (s s' : Option (OpenEcc Key Group))
    (hrun : (conversation lib curve).run none es = some s)
    (hrun' : (conversation lib curve).run none es' = some s') :
    (List.Forall₂ (fun e e' => SameTexts e.1 e'.1) (es.filter fun e => e.1.onScalar)
        (es'.filter fun e => e.1.onScalar) →
      List.Forall₂ (fun e e' => e.2 = e'.2) (es.filter fun e => e.1.onScalar)
        (es'.filter fun e => e.1.onScalar)) ∧
    (List.Forall₂ (fun e e' => SameDraws e.1 e'.1) (es.filter fun e => e.1.onPoint)
        (es'.filter fun e => e.1.onPoint) →
      List.Forall₂ (fun e e' => e.2 = e'.2) (es.filter fun e => e.1.onPoint)
        (es'.filter fun e => e.1.onPoint)) := by
  obtain ⟨h, hh, -⟩ := (conversation_realizes hlib hstore).run hrun
  obtain ⟨h', hh', -⟩ := (conversation_realizes hlib hstore).run hrun'
  rw [List.filterMap_some] at hh hh'
  exact ⟨scalarHalf.same_answers hh hh', pointHalf.same_answers hh hh'⟩

/-- The same start, with the draw 4 and other calls between. -/
def fiveRedrawn : List (Method (smallCurve 21) × Answer) :=
  fiveImported.take 1 ++ [(.getPubKey, .text [51]), (.importPrivKey [53] ⟨4, by decide⟩, .done),
    (.verifyMessage [97] [4] [], .verdict true), (.dumpPrivKey, .text [53])]

theorem halves_independent_fiveRedrawn :
    List.Forall₂ (fun e e' => e.2 = e'.2) (fiveImported.filter fun e => e.1.onScalar)
      (fiveRedrawn.filter fun e => e.1.onScalar) :=
  (halves_independent (smallLib 21) (smallCurve 21) (smallLib_documented 21) (fun _ _ _ => rfl)
    fiveImported fiveRedrawn (some ⟨⟨some 25, some 5, some 2⟩, 25, List.range 82⟩)
    (some ⟨⟨some 25, some 5, some 4⟩, 25, List.range 82⟩) rfl rfl).1
      (.cons (.refl _) (.cons (.importPrivKey _ _ _) (.cons (.refl _) .nil)))

end LearnFramework.Ecc
