import TimeLake.Query.Meaning
import TimeLake.Query.Restriction

/-!
What a caller may see only shrinks. The claims of a request are narrowed by the
grants of its token and again by those of its certificate, and with fewer
authorizations a label is shown to fewer: where the parser of a label stands
never depends on them, and the value of an expression only grows with them.

The mask over a batch reads the label column in the shape it arrives in: as a
dictionary, of which each value is evaluated once, or as strings or views, whose
answers a memo keeps.
-/

namespace TimeLake.Query

open TimeLake.Library

section Value

theorem LabelExpr.value_mono {held held' : List Char → Bool}
    (h : ∀ text, held text = true → held' text = true) (x : LabelExpr)
    (hx : x.value held = true) : x.value held' = true := by
  induction x with
  | token text => exact h text hx
  | join op x y ihx ihy =>
      cases op with
      | and =>
          rw [LabelExpr.value, Bool.and_eq_true] at hx ⊢
          exact ⟨ihx hx.1, ihy hx.2⟩
      | or =>
          rw [LabelExpr.value, Bool.or_eq_true] at hx ⊢
          exact hx.imp ihx ihy

variable {auths auths' : List String}

theorem heldBytes_mono (h : auths ⊆ auths') (text : List Char)
    (hheld : heldBytes auths text = true) : heldBytes auths' text = true := by
  rw [heldBytes_eq, List.contains_iff_mem] at hheld ⊢
  exact h hheld

/-- Whether a label evaluates at all does not depend on the authorizations. -/
theorem evaluate_error_iff (label : String) (auths auths' : List String) :
    (∃ e, evaluate label auths = .error e) ↔ ∃ e, evaluate label auths' = .error e := by
  have herror : ∀ auths, (∃ e, evaluate label auths = .error e) ↔
      label.toList.all isWhitespace = false ∧ ∀ x, ¬DerivesLabel label.toList x := by
    intro auths
    cases hblank : label.toList.all isWhitespace with
    | true => simp [evaluate_blank hblank]
    | false =>
        simp only [true_and]
        constructor
        · rintro ⟨e, he⟩ x hx
          have hok : evaluate label auths = .ok (x.value (heldBytes auths)) :=
            (evaluate_ok_iff hblank _).mpr ⟨x, hx, rfl⟩
          rw [he] at hok
          cases hok
        · intro hnone
          cases he : evaluate label auths with
          | error e => exact ⟨e, rfl⟩
          | ok v =>
              obtain ⟨x, hx, _⟩ := (evaluate_ok_iff hblank v).mp he
              exact absurd hx (hnone x)
  rw [herror auths, herror auths']

theorem isVisible_iff {label : String} :
    isVisible label auths = true ↔ evaluate label auths = .ok true := by
  unfold isVisible
  split
  · next v he => rw [he, Except.ok.injEq]
  · next e he => simp [he]

/-- A label shown to some authorizations is shown to more of them. -/
theorem isVisible_mono (h : auths ⊆ auths') {label : String}
    (hvisible : isVisible label auths = true) : isVisible label auths' = true := by
  rw [isVisible_iff] at hvisible ⊢
  cases hblank : label.toList.all isWhitespace with
  | true => exact evaluate_blank hblank
  | false =>
      obtain ⟨x, hx, hvalue⟩ := (evaluate_ok_iff hblank _).mp hvisible
      exact (evaluate_ok_iff hblank _).mpr
        ⟨x, hx, (x.value_mono (heldBytes_mono h) hvalue.symm).symm⟩

end Value

section Masks

/-- The label column as it arrives; `none` is a null. The keys of a dictionary
index its values. -/
inductive LabelArray where
  | dictionary (keys : List (Option Nat)) (values : List (Option String))
      (inRange : ∀ k, some k ∈ keys → k < values.length)
  | utf8 (labels : List (Option String))
  | utf8View (labels : List (Option String))
  | other (ty : ArrowType) (length : Nat) (noLabel : isLabelType ty = false)

namespace LabelArray

/-- The label of each row. -/
def labels : LabelArray → List (Option String)
  | dictionary keys values _ => keys.map fun key => key.bind fun k => (values[k]?).join
  | utf8 labels | utf8View labels => labels
  | other _ length _ => List.replicate length none

def dataType : LabelArray → ArrowType
  | dictionary .. => .dictionary
  | utf8 _ => .utf8
  | utf8View _ => .utf8View
  | other ty _ _ => ty

end LabelArray

variable (auths : List String)

/-- The answer for a label, kept in a memo from the first row that has it. -/
def memoMask : List (String × Bool) → List (Option String) → List Bool
  | _, [] => []
  | memo, none :: rest => true :: memoMask memo rest
  | memo, some label :: rest =>
      match memo.lookup label with
      | some visible => visible :: memoMask memo rest
      | none =>
          let visible := isVisible label auths
          visible :: memoMask ((label, visible) :: memo) rest

/-- The mask `apply_visibility` computes: a null label is public. -/
def labelMask (column : String) : LabelArray → Except RestrictionError (List Bool)
  | .dictionary keys values _ =>
      let visible := values.map fun value => value.all (isVisible · auths)
      .ok (keys.map fun key =>
        match key with
        | none => true
        | some k => visible.getD k false)
  | .utf8 labels | .utf8View labels => .ok (memoMask auths [] labels)
  | .other ty _ _ => .error (.labelNotString column ty)

/-- What every shape of the column comes to. -/
def shown (label : Option String) : Bool := label.all (isVisible · auths)

theorem memoMask_eq {memo : List (String × Bool)}
    (hmemo : ∀ label v, memo.lookup label = some v → v = isVisible label auths)
    (labels : List (Option String)) : memoMask auths memo labels = labels.map (shown auths) := by
  induction labels generalizing memo with
  | nil => rfl
  | cons label labels ih =>
      cases label with
      | none => rw [memoMask, ih hmemo, List.map_cons, shown, Option.all_none]
      | some label =>
          rw [memoMask]
          cases hlookup : memo.lookup label with
          | some v =>
              rw [List.map_cons, ← ih hmemo, shown, Option.all_some, hmemo _ _ hlookup]
          | none =>
              have hmemo' : ∀ other v,
                  ((label, isVisible label auths) :: memo).lookup other = some v →
                    v = isVisible other auths := by
                intro other v h
                by_cases heq : other = label
                · subst heq
                  rw [List.lookup_cons_self] at h
                  exact (Option.some.inj h).symm
                · rw [List.lookup_cons, beq_eq_false_iff_ne.mpr heq] at h
                  exact hmemo other v h
              rw [List.map_cons, ← ih hmemo', shown, Option.all_some]

/-- The mask of a column of strings has the answer for each row's label. -/
theorem labelMask_ok {column : String} {a : LabelArray} {mask : List Bool}
    (h : labelMask auths column a = .ok mask) : mask = a.labels.map (shown auths) := by
  cases a with
  | dictionary keys values inRange =>
      obtain rfl := Except.ok.inj h
      rw [LabelArray.labels, List.map_map]
      apply List.map_congr_left
      intro key hkey
      cases key with
      | none => rfl
      | some k =>
          have hk := inRange k hkey
          simp only [List.getD_eq_getElem?_getD, List.getElem?_map, Function.comp,
            Option.bind_some, List.getElem?_eq_getElem hk, Option.map_some, Option.getD_some,
            Option.join_some, shown]
  | utf8 labels | utf8View labels =>
      obtain rfl := Except.ok.inj h
      exact memoMask_eq auths (fun _ _ h => by cases h) labels
  | other ty length noLabel => cases h

theorem labelMask_of_labelType (column : String) {a : LabelArray}
    (h : isLabelType a.dataType = true) :
    labelMask auths column a = .ok (a.labels.map (shown auths)) := by
  cases ha : labelMask auths column a with
  | ok mask => rw [labelMask_ok auths ha]
  | error e =>
      cases a with
      | dictionary | utf8 | utf8View => cases ha
      | other ty length noLabel =>
          rw [LabelArray.dataType, noLabel] at h
          cases h

end Masks

section Batches

/-- A batch with its label column, if it has one: a label for each row. -/
structure LabelledBatch (α : Type) where
  rows : List α
  column : Option LabelArray
  aligned : ∀ a ∈ column, a.labels.length = rows.length

/-- `filter_record_batch`. -/
def filterRows {α : Type} (rows : List α) (mask : List Bool) : List α :=
  (rows.zip mask).filterMap fun p => if p.2 then some p.1 else none

/-- `apply_visibility`: the rows the mask keeps. -/
def keptRows {α : Type} (name : String) (auths : List String) (b : LabelledBatch α) :
    Except RestrictionError (List α) :=
  match b.column with
  | none => .ok b.rows
  | some a => (labelMask auths name a).map (filterRows b.rows)

theorem filterRows_cons {α : Type} (r : α) (rows : List α) (keep : Bool) (mask : List Bool) :
    filterRows (r :: rows) (keep :: mask) =
      if keep then r :: filterRows rows mask else filterRows rows mask := by
  cases keep <;> rfl

theorem filterRows_sublist {α β : Type} {p q : β → Bool} (h : ∀ l, p l = true → q l = true)
    (rows : List α) (labels : List β) :
    List.Sublist (filterRows rows (labels.map p)) (filterRows rows (labels.map q)) := by
  induction rows generalizing labels with
  | nil => exact List.Sublist.refl _
  | cons r rows ih =>
      cases labels with
      | nil => exact List.Sublist.refl _
      | cons l labels =>
          rw [List.map_cons, List.map_cons, filterRows_cons, filterRows_cons]
          cases hp : p l with
          | true =>
              rw [h l hp]
              exact (ih labels).cons_cons r
          | false =>
              cases hq : q l with
              | true => exact (ih labels).cons r
              | false => exact ih labels

/-- With more authorizations a batch keeps every row it kept, in their order, and
it is refused for the same columns. -/
theorem keptRows_mono {α : Type} {auths auths' : List String} (h : auths ⊆ auths')
    (name : String) (b : LabelledBatch α) :
    match keptRows name auths b with
    | .ok rows => ∃ rows', keptRows name auths' b = .ok rows' ∧ rows.Sublist rows'
    | .error e => keptRows name auths' b = .error e := by
  unfold keptRows
  cases b.column with
  | none => exact ⟨b.rows, rfl, List.Sublist.refl _⟩
  | some a =>
      by_cases hty : isLabelType a.dataType = true
      · simp only [labelMask_of_labelType _ name hty, Except.map]
        refine ⟨_, rfl, filterRows_sublist ?_ b.rows a.labels⟩
        intro label hlabel
        cases label with
        | none => rfl
        | some label =>
            rw [shown, Option.all_some] at hlabel ⊢
            exact isVisible_mono h hlabel
      · cases a with
        | dictionary | utf8 | utf8View => exact absurd rfl hty
        | other ty length noLabel => rfl

/-- The batch of the restrictions, with its label column in some shape. -/
def LabelledBatch.Presents (name : String) (p : LabelledBatch Record) (b : RecordBatch) : Prop :=
  p.rows = b.rows ∧ p.column.map LabelArray.dataType = b.column name ∧
    ∀ a ∈ p.column, isLabelType a.dataType = true →
      a.labels.map (Option.map Cell.str) = b.rows.map (· name)

/-- The mask over the shape a batch has comes to the restriction over its cells. -/
theorem keptRows_eq_applyVisibility {name : String} {auths : List String}
    {p : LabelledBatch Record} {b : RecordBatch} (h : p.Presents name b) :
    keptRows name auths p = (applyVisibility name auths b).map RecordBatch.rows := by
  obtain ⟨hrows, htype, hlabels⟩ := h
  unfold keptRows applyVisibility
  rw [← htype]
  cases hcolumn : p.column with
  | none => exact congrArg Except.ok hrows
  | some a =>
      simp only [Option.map_some]
      by_cases hty : isLabelType a.dataType = true
      · rw [labelMask_of_labelType _ name hty, if_pos hty]
        have hcells := hlabels a hcolumn hty
        simp only [Except.map, RecordBatch.filter, hrows]
        apply congrArg Except.ok
        generalize b.rows = rows at hcells
        generalize a.labels = labels at hcells
        induction rows generalizing labels with
        | nil => rfl
        | cons r rows ih =>
            cases labels with
            | nil => cases hcells
            | cons label labels =>
                simp only [List.map_cons, List.cons.injEq] at hcells
                have hshown : shown auths label = labelVisible name auths r := by
                  rw [labelVisible, ← hcells.1]
                  cases label <;> rfl
                rw [List.map_cons, filterRows_cons, ih labels hcells.2, hshown, List.filter_cons]
      · rw [if_neg hty]
        cases a with
        | dictionary | utf8 | utf8View => exact absurd rfl hty
        | other ty length noLabel => rfl

end Batches

section Requests

/-- The claims a request makes: those of its header, and those of its body that
are not among them. -/
def requestClaims (header requested : List String) : List String :=
  requested.foldl (fun auths a => if auths.contains a then auths else auths ++ [a]) header

/-- The claims left by a token; a token without grants leaves all of them. -/
def tokenNarrow (granted : Option (List String)) (auths : List String) : List String :=
  match granted with
  | some granted => auths.filter fun claimed => granted.any (· = claimed)
  | none => auths

/-- `QuerySession::resolve`: the authorizations left by the certificate, if the
caller presents one and grants are recorded for it. -/
def resolveSession (identity : Option String) (granted : Option (List String))
    (auths : List String) : List String :=
  match identity, granted with
  | some _, some granted => auths.filter fun claimed => granted.any (· = claimed)
  | _, _ => auths

/-- The authorizations a query runs with. -/
def sessionAuths (header requested : List String) (token : Option (List String))
    (identity : Option String) (certGrants : String → Option (List String)) : List String :=
  resolveSession identity (identity.bind certGrants)
    (tokenNarrow token (requestClaims header requested))

theorem tokenNarrow_subset (granted : Option (List String)) (auths : List String) :
    tokenNarrow granted auths ⊆ auths := by
  cases granted with
  | none => exact List.Subset.refl _
  | some granted => exact List.filter_subset_self _

theorem resolveSession_subset (identity : Option String) (granted : Option (List String))
    (auths : List String) : resolveSession identity granted auths ⊆ auths := by
  cases identity with
  | none => exact List.Subset.refl _
  | some id =>
      cases granted with
      | none => exact List.Subset.refl _
      | some granted => exact List.filter_subset_self _

/-- Authorizations only narrow. With fewer of them a label is not shown to more
and evaluates or not alike; so whatever a token and a certificate grant, the rows
of a batch a request gets are rows its claims alone would get. -/
theorem authorizations_only_narrow :
    (∀ (label : String) (auths auths' : List String), auths ⊆ auths' →
      (isVisible label auths = true → isVisible label auths' = true) ∧
        ((∃ e, evaluate label auths = .error e) ↔ ∃ e, evaluate label auths' = .error e)) ∧
    ∀ (α : Type) (b : LabelledBatch α) (header requested : List String)
      (token : Option (List String)) (identity : Option String)
      (certGrants : String → Option (List String)),
      match keptRows visibilityColumn (sessionAuths header requested token
        identity certGrants) b with
      | .ok rows => ∃ rows', keptRows visibilityColumn (requestClaims header requested) b =
          .ok rows' ∧ rows.Sublist rows'
      | .error e => keptRows visibilityColumn (requestClaims header requested) b = .error e := by
  refine ⟨fun label auths auths' h => ⟨isVisible_mono h, evaluate_error_iff label auths auths'⟩, ?_⟩
  intro α b header requested token identity certGrants
  apply keptRows_mono
  intro a ha
  exact tokenNarrow_subset token _ (resolveSession_subset identity _ _ ha)

/-- A label shown to one of its two tokens is shown to both together. -/
theorem either_token_shown : isVisible "ops|audit" ["audit", "ops"] = true :=
  (authorizations_only_narrow.1 "ops|audit" ["ops"] ["audit", "ops"] (by simp)).1
    (by decide +kernel)

end Requests

end TimeLake.Query
