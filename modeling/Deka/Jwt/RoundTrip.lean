/-
Deka/Jwt/RoundTrip.lean

Every token that `sign` makes is accepted by `verify`.

The two functions bound sizes at different stages.  They agree because the HMAC
bounds what is signed: a token is that text, a dot and the 43 characters of the
signature, which is the bound of `verify`; and the payload inside is a quarter
shorter, so the nulls that `verify` adds fit.
-/
import Deka.Jwt.Sample

namespace Deka.Jwt

open Deka.Vm

variable {F : Type}

/-! ### Results -/

theorem bind_eq_ok {α β : Type} {r : Except String α} {f : α → Except String β} {b : β}
    (h : r >>= f = .ok b) : ∃ a, r = .ok a ∧ f a = .ok b := by
  cases r with
  | ok a => exact ⟨a, rfl, h⟩
  | error e => cases h

theorem bind_ok {α β : Type} {r : Except String α} {a : α} (h : r = .ok a)
    (f : α → Except String β) : r >>= f = f a := by
  rw [h]
  rfl

theorem require_ok {p : Prop} [Decidable p] {error : String} :
    require p error = .ok () ↔ p := by
  unfold require
  split <;> simp [*]

theorem orElse_ok {α : Type} {r : Except String α} {error : String} {a : α} :
    orElse r error = .ok a ↔ r = .ok a := by
  cases r with
  | ok b => simp [orElse]
  | error e => simp [orElse]

theorem forM_ok {α : Type} {f : α → Except String Unit} {xs : List α} :
    xs.forM f = .ok () ↔ ∀ x ∈ xs, f x = .ok () := by
  induction xs with
  | nil => simp [List.forM, pure, Except.pure]
  | cons x xs ih =>
      rw [List.forM]
      rcases hx : f x with e | u
      · simp [bind, Except.bind, hx]
      · simp only [bind, Except.bind, List.forall_mem_cons, hx, true_and]
        exact ih

/-! ### Objects -/

namespace Object

theorem ext_fields {a b : Object} (h : a.fields = b.fields) : a = b := by
  cases a
  cases b
  cases h
  rfl

theorem fields_set_new {o : Object} {name : String} (h : ¬ o.contains name) (value : String) :
    (o.set name value).fields = o.fields ++ [(name, value)] := by
  rw [set, dif_neg h]

theorem fields_set_old {o : Object} {name : String} (h : o.contains name) (value : String) :
    (o.set name value).fields = replace o.fields name value := by
  rw [set, dif_pos h]

theorem raw?_eq_some {o : Object} {name raw : String} :
    o.raw? name = some raw ↔ (name, raw) ∈ o.fields := by
  rw [raw?, Option.map_eq_some_iff]
  constructor
  · rintro ⟨e, he, rfl⟩
    have hname : e.1 = name := by simpa using List.find?_some he
    subst hname
    exact List.mem_of_find?_eq_some he
  · intro hmem
    rcases hfind : o.fields.find? (fun e => e.1 = name) with - | e
    · have hnone := List.find?_eq_none.mp hfind _ hmem
      simp at hnone
    · have hname : e.1 = name := by simpa using List.find?_some hfind
      have he := List.mem_of_find?_eq_some hfind
      exact ⟨e, hfind, congrArg Prod.snd (List.inj_on_of_nodup_map o.nodup he hmem hname)⟩

theorem raw?_eq_none {o : Object} {name : String} :
    o.raw? name = none ↔ ¬ o.contains name := by
  rw [raw?, Option.map_eq_none_iff, List.find?_eq_none, contains]
  simp only [List.any_eq_true, not_exists, not_and]

/-- **Setting a property** changes the text of that property only. -/
theorem raw?_set (o : Object) (name value other : String) :
    (o.set name value).raw? other = if other = name then some value else o.raw? other := by
  by_cases hc : o.contains name
  · rcases hraw : o.raw? other with - | raw
    · have hne : other ≠ name := by
        rintro rfl
        exact raw?_eq_none.mp hraw hc
      rw [if_neg hne, raw?_eq_none, contains_iff, fields_set_old hc, keys_replace, ← contains_iff]
      exact raw?_eq_none.mp hraw
    · have hmem := raw?_eq_some.mp hraw
      have hset := List.mem_map_of_mem (f := fun e : String × String =>
        if e.1 = name then (e.1, value) else e) hmem
      split
      · next he =>
          subst he
          rw [raw?_eq_some, fields_set_old hc]
          rwa [if_pos rfl] at hset
      · next he =>
          rw [raw?_eq_some, fields_set_old hc]
          rwa [if_neg he] at hset
  · split
    · next he =>
        rw [raw?_eq_some, fields_set_new hc, he]
        simp
    · next he =>
        rw [raw?, raw?, fields_set_new hc, List.find?_append]
        simp [Ne.symm he]

/-- The properties of an object that `serde_json` would take. -/
def Sound (F : Type) [Serde F] (o : Object) : Prop := ∀ e ∈ o.fields, Serde.IsProperty F e.2

variable [Serde F]

theorem Sound.set {o : Object} (h : o.Sound F) (name : String) {value : String}
    (hv : Serde.IsProperty F value) : (o.set name value).Sound F := by
  intro e he
  by_cases hc : o.contains name
  · rw [fields_set_old hc] at he
    obtain ⟨e', he', rfl⟩ := List.mem_map.mp he
    split
    · exact hv
    · exact h e' he'
  · rw [fields_set_new hc] at he
    rcases List.mem_append.mp he with he | he
    · exact h e he
    · rw [List.mem_singleton.mp he]
      exact hv

theorem Sound.ofEntries {entries : List (String × String)}
    (h : ∀ e ∈ entries, Serde.IsProperty F e.2) : (ofEntries entries).Sound F := by
  have hfold : ∀ (es : List (String × String)) (o : Object), o.Sound F →
      (∀ e ∈ es, Serde.IsProperty F e.2) →
      (es.foldl (fun o e => o.set e.1 e.2) o).Sound F := by
    intro es
    induction es with
    | nil => exact fun o ho _ => ho
    | cons e es ih =>
        intro o ho hes
        exact ih _ (ho.set _ (hes e (List.mem_cons_self ..)))
          fun e' he' => hes e' (List.mem_cons_of_mem _ he')
  exact hfold entries empty nofun h

/-- Entries of different names are kept as they are. -/
theorem ofEntries_fields (o : Object) : ofEntries o.fields = o := by
  have hfold : ∀ (es : List (String × String)) (o : Object),
      ((o.fields ++ es).map Prod.fst).Nodup →
      (es.foldl (fun o e => o.set e.1 e.2) o).fields = o.fields ++ es := by
    intro es
    induction es with
    | nil => exact fun o _ => (List.append_nil _).symm
    | cons e es ih =>
        intro o hnodup
        have hnew : ¬ o.contains e.1 := by
          rw [contains_iff]
          rw [List.map_append, List.map_cons, List.nodup_append] at hnodup
          exact fun hmem => hnodup.2.2 _ hmem _ (List.mem_cons_self ..) rfl
        have hfields := fields_set_new hnew e.2
        rw [List.foldl_cons, ih, hfields, List.append_assoc]
        · rfl
        · rwa [hfields, List.append_assoc]
  exact ext_fields (hfold o.fields empty o.nodup)

theorem keys_set (o : Object) (name value : String) :
    (o.set name value).fields.map Prod.fst = o.fields.map Prod.fst ∨
      (o.set name value).fields.map Prod.fst = o.fields.map Prod.fst ++ [name] := by
  by_cases hc : o.contains name
  · rw [fields_set_old hc, keys_replace]
    exact Or.inl rfl
  · rw [fields_set_new hc, List.map_append]
    exact Or.inr rfl

/-- What is read of a property depends on its text only. -/
theorem number_congr {o o' : Object} {name : String} (h : o.raw? name = o'.raw? name) :
    o.number F name = o'.number F name := by
  simp only [number, get, h]

theorem text_congr {o o' : Object} {name : String} (h : o.raw? name = o'.raw? name) :
    o.text F name = o'.text F name := by
  simp only [text, get, h]

end Object

/-! ### Written values -/

variable [Serde F]

/-- A null, a number or a string. -/
def IsScalar (v : Json F) : Prop := v = .null ∨ (∃ n, v = .number n) ∨ ∃ s, v = .string s

theorem put_spec (hlaws : SerdeLaws F) {o o' : Object} {name : String} {v : Json F}
    (hv : IsScalar v) (h : o.put name v = .ok o') :
    ∃ raw, Serde.jsonToString v = .ok raw ∧ o' = o.set name raw ∧ Serde.IsProperty F raw := by
  unfold Object.put at h
  rcases hraw : Serde.jsonToString v with e | raw
  · rw [hraw] at h
    cases h
  · obtain ⟨hfrom, hprop⟩ := hlaws.scalar v raw hv hraw
    rw [hraw] at h
    simp only [bind, Except.bind, hfrom, pure, Except.pure] at h
    cases h
    exact ⟨raw, rfl, rfl, hprop⟩

theorem put_ok (hlaws : SerdeLaws F) (o : Object) (name : String) {v : Json F} {raw : String}
    (hv : IsScalar v) (hraw : Serde.jsonToString v = .ok raw) :
    o.put name v = .ok (o.set name raw) := by
  obtain ⟨hfrom, -⟩ := hlaws.scalar v raw hv hraw
  simp only [Object.put, hraw, hfrom, bind, Except.bind, pure, Except.pure]

/-- **An object that is written is read back.** -/
theorem parse_print (hlaws : SerdeLaws F) {o : Object} (h : o.Sound F)
    (hsize : (Object.print F o.fields).utf8ByteSize ≤ maxInput) :
    Object.parse F (Object.print F o.fields) = .ok o := by
  obtain ⟨⟨j, hj⟩, hentries⟩ := hlaws.printed o.fields h
  rw [Object.parse, bind_ok (require_ok.mpr hsize), bind_ok hj, bind_ok hentries]
  exact congrArg _ (Object.ofEntries_fields o)

theorem Object.Sound.parse (hlaws : SerdeLaws F) {text : String} {o : Object}
    (h : Object.parse F text = .ok o) : o.Sound F := by
  unfold Object.parse at h
  obtain ⟨_, -, h⟩ := bind_eq_ok h
  obtain ⟨j, hj, h⟩ := bind_eq_ok h
  obtain ⟨entries, hentries, h⟩ := bind_eq_ok h
  cases h
  exact .ofEntries (hlaws.parsed text j entries hj hentries)

/-- A number as `numeric` spells it is a finite number to the reader. -/
theorem numeric_spec (hlaws : SerdeLaws F) (hdouble : DoubleLaws F) {x : F} {v : Json F}
    (h : numeric x = .ok v) : ∃ raw n, IsScalar v ∧ Serde.jsonToString v = .ok raw ∧
      Serde.jsonFromStr raw = .ok (.number n : Json F) ∧ F64.isFinite (asF64 n) := by
  unfold numeric at h
  split at h
  · cases h
  · next hfinite =>
      split at h
      · cases h
        obtain ⟨hlo, hhi⟩ := hdouble.truncI64_range x
        obtain ⟨raw, hraw, hread⟩ := hlaws.int _ hlo hhi
        exact ⟨raw, _, Or.inr (Or.inl ⟨_, rfl⟩), hraw, hread, hdouble.finite_ofInt hlo hhi⟩
      · cases h
        obtain ⟨raw, y, hraw, hread, hy⟩ := hlaws.float x (not_not.mp hfinite)
        exact ⟨raw, _, Or.inr (Or.inl ⟨_, rfl⟩), hraw, hread, hy⟩

/-! ### The claims that are asked for -/

/-- The value of a numeric property, if it has one. -/
def Object.number? (F : Type) [Serde F] (o : Object) (name : String) : Option F :=
  (o.number F name).toOption.join

/-- The value of a string property, if it has one. -/
def Object.text? (F : Type) [Serde F] (o : Object) (name : String) : Option String :=
  (o.text F name).toOption.join

/-- The text that a number is written as. -/
def spell (x : F) : Option String :=
  match numeric x with
  | .ok v => (Serde.jsonToString v).toOption
  | .error _ => none

/-- **The claims a token should have**: those of the payload, with the strings of the
options, the time of issue where the payload gives none, and the expiry the options ask
for. -/
def asked (options payload : Object) (now : F) (name : String) : Option String :=
  if name = "exp" then
    match options.number? F "exp" <|> (options.number? F "exp_in").map (F64.add now) <|>
        payload.number? F "exp" with
    | some exp => spell exp
    | none => payload.raw? "exp"
  else if name = "iat" then spell ((payload.number? F "iat").getD now)
  else if name ∈ ["iss", "aud", "sub"] then
    match options.text? F name with
    | some value => some (Serde.quote F value)
    | none => payload.raw? name
  else payload.raw? name

theorem Object.number?_of_ok {o : Object} {name : String} {x : Option F}
    (h : o.number F name = .ok x) : o.number? F name = x := by
  rw [Object.number?, h]
  rfl

theorem Object.text?_of_ok {o : Object} {name : String} {x : Option String}
    (h : o.text F name = .ok x) : o.text? F name = x := by
  rw [Object.text?, h]
  rfl

theorem expiry_eq {options payload : Object} {now : F} {exp : Option F}
    (h : expiry options payload now = .ok exp) :
    exp = (options.number? F "exp" <|> (options.number? F "exp_in").map (F64.add now) <|>
      payload.number? F "exp") := by
  unfold expiry at h
  rcases hin : options.number F "exp_in" with e | relative
  · rw [hin] at h
    cases h
  · rw [hin] at h
    rw [Object.number?_of_ok hin]
    rcases hexp : options.number F "exp" with e | absolute
    · cases relative with
      | some n =>
          rw [hexp] at h
          cases h
      | none =>
          rcases hclaim : payload.number F "exp" with e | claim
          · simp only [bind, Except.bind, hclaim] at h
            cases h
          · simp only [bind, Except.bind, hclaim, hexp] at h
            cases h
    · rw [Object.number?_of_ok hexp]
      cases relative with
      | some n =>
          simp only [bind, Except.bind, hexp, pure, Except.pure] at h
          cases h
          rfl
      | none =>
          rcases hclaim : payload.number F "exp" with e | claim
          · simp only [bind, Except.bind, hclaim] at h
            cases h
          · simp only [bind, Except.bind, hclaim, hexp, pure, Except.pure] at h
            cases h
            rw [Object.number?_of_ok hclaim]
            rfl

/-- One of the strings of the options, in its place. -/
theorem overrideText_spec (hlaws : SerdeLaws F) {options o o' : Object} {name : String}
    (h : overrideText (F := F) options o name = .ok o') (hsound : o.Sound F) :
    o'.Sound F ∧ (∀ other, other ≠ name → o'.raw? other = o.raw? other) ∧
      o'.raw? name = match options.text? F name with
        | some value => some (Serde.quote F value)
        | none => o.raw? name := by
  unfold overrideText at h
  rcases htext : options.text F name with e | value
  · rw [htext] at h
    cases h
  · rw [htext] at h
    rw [Object.text?_of_ok htext]
    cases value with
    | none =>
        cases h
        exact ⟨hsound, fun _ _ => rfl, rfl⟩
    | some value =>
        obtain ⟨raw, hraw, rfl, hprop⟩ := put_spec hlaws (Or.inr (Or.inr ⟨value, rfl⟩)) h
        rw [(hlaws.string value).1] at hraw
        cases hraw
        refine ⟨hsound.set _ hprop, fun other hne => ?_, ?_⟩
        · rw [Object.raw?_set, if_neg hne]
        · rw [Object.raw?_set, if_pos rfl]

/-- A number in its place, which the reader finds to be finite. -/
theorem putNumber_spec (hlaws : SerdeLaws F) (hdouble : DoubleLaws F) {o o' : Object}
    {name : String} {x : F} {v : Json F} (hv : numeric x = .ok v) (h : o.put name v = .ok o')
    (hsound : o.Sound F) :
    o'.Sound F ∧ (∀ other, other ≠ name → o'.raw? other = o.raw? other) ∧
      o'.raw? name = spell x ∧ ∃ y, o'.number F name = .ok (some y) ∧ F64.isFinite y := by
  obtain ⟨raw, n, hscalar, hraw, hread, hfinite⟩ := numeric_spec hlaws hdouble hv
  obtain ⟨raw', hraw', rfl, hprop⟩ := put_spec hlaws hscalar h
  rw [hraw] at hraw'
  cases hraw'
  have hself : (o.set name raw).raw? name = some raw := by rw [Object.raw?_set, if_pos rfl]
  refine ⟨hsound.set _ hprop, fun other hne => ?_, ?_, asF64 n, ?_, hfinite⟩
  · rw [Object.raw?_set, if_neg hne]
  · rw [hself, spell, hv]
    simp only [hraw, Except.toOption]
  · simp only [Object.number, Object.get, hself, hread, Except.map, bind, Except.bind, hfinite,
      if_true, pure, Except.pure]

/-- The claims of a token, and what the reader makes of them. -/
structure Claims (options payload : Object) (now : F) (claims : Object) : Prop where
  sound : claims.Sound F
  raw : ∀ name, claims.raw? name = asked options payload now name
  valid : ∀ field ∈ Claim.all, ∃ u, claims.check F field.name field.kind = .ok u

theorem check_congr {o o' : Object} {name : String} (h : o.raw? name = o'.raw? name)
    (kind : Kind) : o.check F name kind = o'.check F name kind := by
  cases kind with
  | number => simp only [Object.check, Object.number_congr h]
  | string => simp only [Object.check, Object.text_congr h]

theorem check_number {o : Object} {name : String} {x : Option F}
    (h : o.number F name = .ok x) : o.check F name .number = .ok () := by
  rw [Object.check, h]
  rfl

theorem check_text {o : Object} {name : String} {x : Option String}
    (h : o.text F name = .ok x) : o.check F name .string = .ok () := by
  rw [Object.check, h]
  rfl

/-- A string that may have been replaced by one of the options is still a string. -/
theorem check_override (hlaws : SerdeLaws F) {options o o' : Object} {name : String}
    (hraw : o'.raw? name = match options.text? F name with
      | some value => some (Serde.quote F value)
      | none => o.raw? name)
    (h : o.check F name .string = .ok ()) : o'.check F name .string = .ok () := by
  rcases htext : options.text? F name with - | value
  · rw [htext] at hraw
    exact (check_congr hraw _).trans h
  · rw [htext] at hraw
    have hread : o'.text F name = .ok (some value) := by
      simp only [Object.text, Object.get, hraw, (hlaws.string value).2, Except.map, bind,
        Except.bind, pure, Except.pure]
    exact check_text hread

theorem claimsOf_spec (hlaws : SerdeLaws F) (hdouble : DoubleLaws F) {options claims : Object}
    {payload : String} {now : F} (h : claimsOf options payload now = .ok claims) :
    ∃ object, Object.parse F payload = .ok object ∧ Claims options object now claims := by
  unfold claimsOf at h
  obtain ⟨object, hparse, h⟩ := bind_eq_ok h
  obtain ⟨_, hvalid, h⟩ := bind_eq_ok h
  obtain ⟨iat, hiat, h⟩ := bind_eq_ok h
  obtain ⟨exp, hexp, h⟩ := bind_eq_ok h
  obtain ⟨named, hnamed, h⟩ := bind_eq_ok h
  obtain ⟨v, hv, h⟩ := bind_eq_ok h
  obtain ⟨issued, hissued, h⟩ := bind_eq_ok h
  have hparse := orElse_ok.mp hparse
  have hvalid := forM_ok.mp (orElse_ok.mp hvalid)
  have hsound := Object.Sound.parse hlaws hparse
  have hexp := expiry_eq hexp
  rw [← Object.number?_of_ok hiat] at hv
  -- the strings of the options
  obtain ⟨o₁, h₁, hnamed⟩ := bind_eq_ok hnamed
  obtain ⟨o₂, h₂, hnamed⟩ := bind_eq_ok hnamed
  obtain ⟨o₃, h₃, hnamed⟩ := bind_eq_ok hnamed
  cases hnamed
  obtain ⟨hs₁, hother₁, hiss⟩ := overrideText_spec hlaws h₁ hsound
  obtain ⟨hs₂, hother₂, haud⟩ := overrideText_spec hlaws h₂ hs₁
  obtain ⟨hs₃, hother₃, hsub⟩ := overrideText_spec hlaws h₃ hs₂
  -- the numbers
  obtain ⟨hs₄, hother₄, hraw₄, iat', hread₄, -⟩ := putNumber_spec hlaws hdouble hv hissued hs₃
  have hexp₄ : issued.raw? "exp" = object.raw? "exp" := by
    rw [hother₄ _ (by decide), hother₃ _ (by decide), hother₂ _ (by decide),
      hother₁ _ (by decide)]
  have hraw : ∀ name, name ≠ "exp" → issued.raw? name = asked options object now name := by
    intro name hname
    rw [asked, if_neg hname]
    by_cases hi : name = "iat"
    · rw [if_pos hi, hi, hraw₄]
    · rw [if_neg hi, hother₄ _ hi]
      by_cases h₃ : name = "sub"
      · subst h₃
        rw [hsub, hother₂ _ (by decide), hother₁ _ (by decide)]
        rfl
      · rw [hother₃ _ h₃]
        by_cases h₂ : name = "aud"
        · subst h₂
          rw [haud, hother₁ _ (by decide)]
          rfl
        · rw [hother₂ _ h₂]
          by_cases h₁ : name = "iss"
          · subst h₁
            exact hiss
          · rw [hother₁ _ h₁, if_neg (by simp [h₁, h₂, h₃])]
  have hcheck : ∀ field ∈ Claim.all, field ≠ .exp →
      issued.check F field.name field.kind = .ok () := by
    intro field hf hne
    cases field with
    | iat => exact check_number hread₄
    | exp => exact absurd rfl hne
    | nbf =>
        have hnbf : issued.raw? "nbf" = object.raw? "nbf" := hraw "nbf" (by decide)
        exact (check_congr hnbf _).trans (hvalid .nbf hf)
    | iss => exact check_override hlaws (hraw "iss" (by decide)) (hvalid .iss hf)
    | aud => exact check_override hlaws (hraw "aud" (by decide)) (hvalid .aud hf)
    | sub => exact check_override hlaws (hraw "sub" (by decide)) (hvalid .sub hf)
  cases exp with
  | none =>
      cases h
      refine ⟨object, hparse, hs₄, fun name => ?_, fun field hf => ?_⟩
      · by_cases hname : name = "exp"
        · rw [hname, asked, if_pos rfl, ← hexp, hexp₄]
        · exact hraw name hname
      · by_cases hf' : field = .exp
        · subst hf'
          exact ⟨_, (check_congr hexp₄ _).trans (hvalid .exp hf)⟩
        · exact ⟨_, hcheck field hf hf'⟩
  | some exp =>
      obtain ⟨w, hw, h⟩ := bind_eq_ok h
      obtain ⟨hs₅, hother₅, hraw₅, exp', hread₅, -⟩ := putNumber_spec hlaws hdouble hw h hs₄
      refine ⟨object, hparse, hs₅, fun name => ?_, fun field hf => ?_⟩
      · by_cases hname : name = "exp"
        · rw [hname, hraw₅, asked, if_pos rfl, ← hexp]
        · rw [hother₅ _ hname, hraw name hname]
      · by_cases hf' : field = .exp
        · subst hf'
          exact ⟨_, check_number hread₅⟩
        · refine ⟨_, (check_congr (hother₅ _ ?_) _).trans (hcheck field hf hf')⟩
          cases field <;> first | exact absurd rfl hf' | decide

/-! ### Bytes of a text -/

theorem fromUtf8_asBytes (text error : String) : fromUtf8 (asBytes text) error = .ok text := by
  have hbytes : (⟨(asBytes text).toArray⟩ : ByteArray) = text.toByteArray := rfl
  rw [fromUtf8, hbytes, String.fromUTF8?, dif_pos text.isValidUTF8]
  rfl

theorem length_asBytes (text : String) : (asBytes text).length = text.utf8ByteSize := rfl

theorem difference_self (a : Bytes) : difference a a = 0 := by
  have hfold : ∀ b : Bytes,
      (b.zip b).foldl (fun (diff : UInt8) x => diff ||| (x.1 ^^^ x.2)) 0 = 0 := by
    intro b
    induction b with
    | nil => rfl
    | cons x b ih =>
        rw [List.zip_cons_cons, List.foldl_cons, UInt8.xor_self, UInt8.or_self]
        exact ih
  exact hfold a

theorem secureCompare_self {a : Bytes} (h : a.length ≤ maxCryptoInput) :
    secureCompare a a = .ok true := by
  have hbounded : bounded a = .ok () := require_ok.mpr h
  rw [secureCompare, bind_ok hbounded, bind_ok hbounded, difference_self]
  simp [pure, Except.pure]

/-! ### The parts of a token -/

/-- What is signed. -/
def signingInput (json : String) : Bytes :=
  b64url (asBytes headerText) ++ [ascii '.'] ++ b64url (asBytes json)

/-- The token of a text of claims. -/
def tokenOf (F : Type) [Serde F] (json : String) (secret : Bytes) : Bytes :=
  signingInput json ++ [ascii '.'] ++ b64url (Serde.hmacSha256 F secret (signingInput json))

/-- **What `sign` makes**: the text it signs is within the bound of the HMAC. -/
theorem sign_spec {payload optionJson : String} {secret token : Bytes} {now : F}
    (h : sign payload secret optionJson now = .ok token) :
    ∃ opts claims json, options F optionJson = .ok opts ∧
      claimsOf opts payload now = .ok claims ∧ claims.stringify F = .ok json ∧
      secret.length ≤ maxInput ∧ (signingInput json).length ≤ maxCryptoInput ∧
      token = tokenOf F json secret := by
  unfold sign at h
  obtain ⟨_, -, h⟩ := bind_eq_ok h
  obtain ⟨_, hsecret, h⟩ := bind_eq_ok h
  obtain ⟨opts, hopts, h⟩ := bind_eq_ok h
  obtain ⟨alg, -, h⟩ := bind_eq_ok h
  obtain ⟨_, -, h⟩ := bind_eq_ok h
  obtain ⟨claims, hclaims, h⟩ := bind_eq_ok h
  obtain ⟨json, hjson, h⟩ := bind_eq_ok h
  obtain ⟨signature, hsignature, h⟩ := bind_eq_ok h
  cases h
  unfold hmac at hsignature
  obtain ⟨_, -, hsignature⟩ := bind_eq_ok hsignature
  obtain ⟨_, -, hsignature⟩ := bind_eq_ok hsignature
  obtain ⟨_, hlength, hsignature⟩ := bind_eq_ok hsignature
  cases hsignature
  exact ⟨opts, claims, json, hopts, hclaims, hjson, require_ok.mp hsecret,
    require_ok.mp hlength, rfl⟩

theorem length_signature (hlaws : SerdeLaws F) (secret data : Bytes) :
    (b64url (Serde.hmacSha256 F secret data)).length = 43 := by
  have hlength := length_b64url (Serde.hmacSha256 F secret data)
  rw [hlaws.signature] at hlength
  have hpad : padding 32 = 1 := rfl
  omega

/-- **The bounds agree**: a token whose signed text the HMAC takes is within the bound
of `verify`, -/
theorem length_tokenOf (hlaws : SerdeLaws F) {json : String} {secret : Bytes}
    (h : (signingInput json).length ≤ maxCryptoInput) :
    (tokenOf F json secret).length ≤ maxToken := by
  have hsignature := length_signature hlaws secret (signingInput json)
  simp only [tokenOf, List.length_append, List.length_singleton, hsignature]
  unfold maxToken maxInput
  unfold maxCryptoInput at h
  omega

/-- and its payload leaves room for the nulls `verify` adds. -/
theorem size_of_signingInput {json : String}
    (h : (signingInput json).length ≤ maxCryptoInput) : json.utf8ByteSize + 1000 ≤ maxInput := by
  have hlength := length_b64url (asBytes json)
  rw [length_asBytes] at hlength
  simp only [signingInput, List.length_append] at h
  unfold padding at hlength
  unfold maxCryptoInput at h
  unfold maxInput
  omega

theorem headerBytes_ne_nil : asBytes headerText ≠ [] := by
  decide

theorem pieces_tokenOf (json : String) (secret : Bytes) :
    pieces (tokenOf F json secret) = .ok (b64url (asBytes headerText), b64url (asBytes json),
      b64url (Serde.hmacSha256 F secret (signingInput json))) := by
  have hsplit : (tokenOf F json secret).splitOn (ascii '.') =
      [b64url (asBytes headerText), b64url (asBytes json),
        b64url (Serde.hmacSha256 F secret (signingInput json))] := by
    rw [tokenOf]
    generalize hs : Serde.hmacSha256 F secret (signingInput json) = signature
    rw [signingInput, List.append_assoc, List.append_assoc, List.append_assoc,
      List.singleton_append, List.splitOn_append_cons_self_of_not_mem (dot_notMem_b64url _),
      List.singleton_append, List.splitOn_append_cons_self_of_not_mem (dot_notMem_b64url _),
      List.splitOn_eq_singleton (dot_notMem_b64url _)]
  rw [pieces, hsplit]

theorem rfindDot_tokenOf (json : String) (secret : Bytes) :
    rfindDot (tokenOf F json secret) = .ok (signingInput json).length := by
  have hdrop : (tokenOf F json secret).rdropWhile (· ≠ ascii '.') =
      signingInput json ++ [ascii '.'] := by
    rw [tokenOf, rdropWhile_append, List.rdropWhile_concat_neg]
    · simp
    · intro c hc
      have hdot := dot_notMem_b64url (Serde.hmacSha256 F secret (signingInput json))
      simpa using fun he : c = ascii '.' => hdot (he ▸ hc)
  rw [rfindDot, hdrop]
  split
  · next hnil => simp at hnil
  · simp

/-! ### What `verify` does with a signed token -/

theorem number_empty (name : String) : Object.empty.number F name = .ok none := rfl

theorem text_empty (name : String) : Object.empty.text F name = .ok none := rfl

/-- No options are asked for. -/
theorem options_empty (hlaws : SerdeLaws F) : options F "\x7b\x7d" = .ok .empty := by
  have hprint : Object.print F Object.empty.fields = "\x7b\x7d" := rfl
  have hparse : Object.parse F "\x7b\x7d" = .ok .empty := by
    rw [← hprint]
    refine parse_print hlaws nofun ?_
    rw [hprint]
    decide
  rw [options, bind_ok (orElse_ok.mpr hparse), bind_ok (forM_ok.mpr ?_)]
  · rfl
  · intro field _
    cases field <;> rfl

def headerObject : Object where
  fields := [("alg", "\"HS256\""), ("typ", "\"JWT\"")]
  nodup := by decide

theorem quote_header (hlaws : SerdeLaws F) :
    Serde.quote F "alg" = "\"alg\"" ∧ Serde.quote F "typ" = "\"typ\"" ∧
      Serde.quote F "HS256" = "\"HS256\"" ∧ Serde.quote F "JWT" = "\"JWT\"" := by
  refine ⟨?_, ?_, ?_, ?_⟩
  · exact hlaws.quote_plain _ (by decide)
  · exact hlaws.quote_plain _ (by decide)
  · exact hlaws.quote_plain _ (by decide)
  · exact hlaws.quote_plain _ (by decide)

theorem print_header (hlaws : SerdeLaws F) :
    Object.print F headerObject.fields = headerText := by
  obtain ⟨halg, htyp, -, -⟩ := quote_header hlaws
  simp only [Object.print, headerObject, Object.members, Object.member, halg, htyp]
  decide

theorem sound_header (hlaws : SerdeLaws F) : headerObject.Sound F := by
  obtain ⟨-, -, hhs, hjwt⟩ := quote_header hlaws
  have hstring : ∀ s, Serde.IsProperty F (Serde.quote F s) := fun s =>
    (hlaws.scalar _ _ (Or.inr (Or.inr ⟨s, rfl⟩)) (hlaws.string s).1).2
  intro e he
  rcases List.mem_pair.mp he with rfl | rfl
  · exact hhs ▸ hstring "HS256"
  · exact hjwt ▸ hstring "JWT"

theorem parse_header (hlaws : SerdeLaws F) : Object.parse F headerText = .ok headerObject := by
  rw [← print_header hlaws]
  refine parse_print hlaws (sound_header hlaws) ?_
  rw [print_header hlaws]
  decide

theorem alg_header (hlaws : SerdeLaws F) :
    headerObject.text F "alg" = .ok (some "HS256") := by
  have hraw : headerObject.raw? "alg" = some (Serde.quote F "HS256") := by
    rw [(quote_header hlaws).2.2.1]
    rfl
  simp only [Object.text, Object.get, hraw, (hlaws.string "HS256").2, Except.map, bind,
    Except.bind, pure, Except.pure]

theorem authenticate_tokenOf (hlaws : SerdeLaws F) {json : String} {secret : Bytes}
    (hsecret : secret.length ≤ maxInput)
    (hinput : (signingInput json).length ≤ maxCryptoInput) :
    authenticate (F := F) (tokenOf F json secret) (b64url (asBytes headerText))
      (b64url (Serde.hmacSha256 F secret (signingInput json))) secret = .ok () := by
  have htake : (tokenOf F json secret).take (signingInput json).length = signingInput json := by
    rw [tokenOf, List.append_assoc, List.take_left]
  have hhmac : hmac (F := F) secret (signingInput json) =
      .ok (Serde.hmacSha256 F secret (signingInput json)) := by
    have hname : bounded (asBytes "sha256") = .ok () := require_ok.mpr (by decide)
    have hkey : bounded secret = .ok () := require_ok.mpr hsecret
    have hdata : bounded (signingInput json) = .ok () := require_ok.mpr hinput
    rw [hmac, bind_ok hname, bind_ok hkey, bind_ok hdata]
    rfl
  have hcompare : secureCompare (Serde.hmacSha256 F secret (signingInput json))
      (Serde.hmacSha256 F secret (signingInput json)) = .ok true := by
    apply secureCompare_self
    rw [hlaws.signature]
    decide
  have halg : (some "HS256").getD "" = "HS256" := rfl
  rw [authenticate, bind_ok (decode_b64url _), bind_ok (fromUtf8_asBytes _ _),
    bind_ok (orElse_ok.mpr (parse_header hlaws)), bind_ok (orElse_ok.mpr (alg_header hlaws)),
    bind_ok (require_ok.mpr halg), bind_ok (orElse_ok.mpr (rfindDot_tokenOf json secret)), htake,
    bind_ok hhmac, bind_ok (orElse_ok.mpr (decode_b64url _)), bind_ok hcompare]
  exact require_ok.mpr rfl

/-- The claims of a token, as a reader finds them in it. -/
def tokenClaims (F : Type) [Serde F] (token : Bytes) : Except String Object := do
  let (_, payload, _) ← pieces token
  readClaims F payload

theorem readClaims_spec (hlaws : SerdeLaws F) {claims : Object} {json : String}
    (hsound : claims.Sound F) (hjson : claims.stringify F = .ok json)
    (hvalid : ∀ field ∈ Claim.all, ∃ u, claims.check F field.name field.kind = .ok u) :
    readClaims F (b64url (asBytes json)) = .ok claims := by
  unfold Object.stringify at hjson
  dsimp only at hjson
  split at hjson
  · cases hjson
  · next hsize =>
      cases hjson
      have hvalidate : claims.validateClaims F = .ok () := forM_ok.mpr fun field hf =>
        (hvalid field hf).choose_spec
      rw [readClaims, bind_ok (decode_b64url _), bind_ok (fromUtf8_asBytes _ _),
        bind_ok (orElse_ok.mpr (parse_print hlaws hsound (not_lt.mp hsize))),
        bind_ok (orElse_ok.mpr hvalidate)]
      rfl

/-- A clock satisfies the time claims of a token. -/
structure Object.Satisfied (claims : Object) (t : F) : Prop where
  iat : ∀ n, claims.number F "iat" = .ok (some n) → F64.le n t
  nbf : ∀ n, claims.number F "nbf" = .ok (some n) → F64.le n t
  exp : ∀ n, claims.number F "exp" = .ok (some n) → F64.le t n

/-- A number that is read is finite. -/
theorem finite_of_number {o : Object} {name : String} {n : F}
    (h : o.number F name = .ok (some n)) : F64.isFinite n := by
  unfold Object.number at h
  obtain ⟨v, hv, h⟩ := bind_eq_ok h
  split at h
  · cases h
  · cases h
  · split at h
    · next hfinite =>
        cases h
        exact hfinite
    · cases h
  · cases h

theorem checkClock_ok (hdouble : DoubleLaws F) {claims : Object} {t : F}
    (ht : F64.isFinite t) (hsat : claims.Satisfied t)
    (hvalid : ∀ field ∈ Claim.all, ∃ u, claims.check F field.name field.kind = .ok u) :
    checkClock claims (F64.ofNat 0) t = .ok () := by
  have hread : ∀ field name, field ∈ Claim.all → field.kind = .number → field.name = name →
      ∃ x, claims.number F name = .ok x := by
    rintro field name hf hkind rfl
    obtain ⟨u, hu⟩ := hvalid field hf
    rw [hkind, Object.check] at hu
    obtain ⟨x, hx, -⟩ := bind_eq_ok hu
    exact ⟨x, hx⟩
  obtain ⟨iat, hiat⟩ := hread .iat "iat" (by decide) rfl rfl
  obtain ⟨exp, hexp⟩ := hread .exp "exp" (by decide) rfl rfl
  obtain ⟨nbf, hnbf⟩ := hread .nbf "nbf" (by decide) rfl rfl
  -- with no leeway a claim is compared as it is
  have hlate : ∀ {x : Option F} {name}, claims.number F name = .ok x →
      (∀ n, claims.number F name = .ok (some n) → F64.le n t) →
      ¬ x.any fun n => F64.lt t (F64.sub n (F64.ofNat 0)) := by
    intro x name hx hle hany
    obtain ⟨n, rfl, hlt⟩ := (Option.any_eq_true _ _).mp hany
    have hfinite := finite_of_number hx
    rw [hdouble.sub_zero t hfinite, hdouble.not_lt hfinite ht (hle n hx)] at hlt
    cases hlt
  have hearly : ¬ exp.any fun n => F64.lt (F64.add n (F64.ofNat 0)) t := by
    intro hany
    obtain ⟨n, rfl, hlt⟩ := (Option.any_eq_true _ _).mp hany
    have hfinite := finite_of_number hexp
    rw [hdouble.add_zero t hfinite, hdouble.not_lt ht hfinite (hsat.exp n hexp)] at hlt
    cases hlt
  rw [checkClock, bind_ok hiat, bind_ok (require_ok.mpr (hlate hiat hsat.iat)), bind_ok hexp,
    bind_ok (require_ok.mpr hearly), bind_ok hnbf]
  exact require_ok.mpr (hlate hnbf hsat.nbf)

/-! ### The nulls of the missing claims -/

theorem size_members (first : Bool) (fields : List (String × String)) (e : String × String) :
    (Object.members F first (fields ++ [e])).utf8ByteSize ≤
      (Object.members F first fields).utf8ByteSize + 1 + (Object.member F e).utf8ByteSize := by
  have hcomma : ∀ first : Bool, (if first then "" else ",").utf8ByteSize ≤ 1 := by decide
  induction fields generalizing first with
  | nil =>
      have := hcomma first
      simp only [List.nil_append, Object.members, String.utf8ByteSize_append,
        String.utf8ByteSize_empty]
      omega
  | cons e' fields ih =>
      have := ih false
      simp only [List.cons_append, Object.members, String.utf8ByteSize_append] at this ⊢
      omega

/-- What the filling of some claims leaves. -/
structure Filled (claims filled : Object) (fields : List Claim) : Prop where
  sound : claims.Sound F → filled.Sound F
  raw : ∀ name, filled.raw? name =
    (claims.raw? name <|> if ∃ field ∈ fields, field.name = name then some "null" else none)
  size : (Object.print F filled.fields).utf8ByteSize ≤
    (Object.print F claims.fields).utf8ByteSize + 20 * fields.length

theorem fill_spec (hlaws : SerdeLaws F) (claims : Object) (field : Claim) :
    ∃ filled, fill F claims field = .ok filled ∧ Filled (F := F) claims filled [field] := by
  unfold fill
  split
  · next hc =>
      refine ⟨claims, rfl, id, fun name => ?_, Nat.le_add_right _ _⟩
      rcases hraw : claims.raw? name with - | raw
      · have hne : field.name ≠ name := by
          rintro rfl
          exact Object.raw?_eq_none.mp hraw hc
        simp [hne]
      · rfl
  · next hc =>
      refine ⟨_, put_ok hlaws claims field.name (Or.inl rfl) hlaws.null.1, fun hs => ?_,
        fun name => ?_, ?_⟩
      · exact hs.set _ (hlaws.scalar _ _ (Or.inl rfl) hlaws.null.1).2
      · rw [Object.raw?_set]
        by_cases hname : name = field.name
        · rw [if_pos hname, hname, Object.raw?_eq_none.mpr hc]
          simp
        · have hne : field.name ≠ name := Ne.symm hname
          simp [hname, hne]
      · have hquote : (Serde.quote F field.name).utf8ByteSize ≤ 5 := by
          rw [hlaws.quote_plain field.name (by cases field <;> decide)]
          cases field <;> decide
        have hsize := size_members (F := F) true claims.fields (field.name, "null")
        have hnull : ("null" : String).utf8ByteSize = 4 := by decide
        have hcolon : (":" : String).utf8ByteSize = 1 := by decide
        rw [Object.fields_set_new hc]
        simp only [Object.print, Object.member, String.utf8ByteSize_append, hnull, hcolon,
          List.length_singleton] at hsize ⊢
        omega

theorem Filled.trans {a b c : Object} {field : Claim} {fields : List Claim}
    (h : Filled (F := F) a b [field]) (h' : Filled (F := F) b c fields) :
    Filled (F := F) a c (field :: fields) where
  sound := fun hs => h'.sound (h.sound hs)
  raw := by
    intro name
    rw [h'.raw, h.raw]
    cases a.raw? name with
    | some raw => rfl
    | none =>
        by_cases hname : field.name = name
        · simp [hname]
        · simp [hname]
  size := by
    have := h.size
    have := h'.size
    simp only [List.length_cons, List.length_nil] at *
    omega

/-- **All claims are there once the missing ones are filled.** -/
theorem fill_all (hlaws : SerdeLaws F) (fields : List Claim) (claims : Object) :
    ∃ filled, fields.foldlM (fill F) claims = .ok filled ∧
      Filled (F := F) claims filled fields := by
  induction fields generalizing claims with
  | nil =>
      refine ⟨claims, rfl, id, fun name => ?_, Nat.le_refl _⟩
      cases claims.raw? name <;> simp
  | cons field fields ih =>
      obtain ⟨next, hnext, hfilled⟩ := fill_spec hlaws claims field
      obtain ⟨filled, hrest, hfilled'⟩ := ih next
      refine ⟨filled, ?_, hfilled.trans hfilled'⟩
      rw [List.foldlM_cons, bind_ok hnext, hrest]

/-! ### Every signed token verifies -/

def vectorPayload : String :=
  "\x7b\"sub\":\"1234567890\",\"name\":\"John Doe\",\"iat\":1516239022\x7d"

def vectorToken : String :=
  "eyJhbGciOiJIUzI1NiIsInR5cCI6IkpXVCJ9." ++
    "eyJzdWIiOiIxMjM0NTY3ODkwIiwibmFtZSI6IkpvaG4gRG9lIiwiaWF0IjoxNTE2MjM5MDIyfQ." ++
    "XbPfbIHMI6arZ3Y922BhjWgQzWXcXNrz0ogtVhfEd2o"

def vectorClaims : Object where
  fields := [("sub", "\"1234567890\""), ("name", "\"John Doe\""), ("iat", "1516239022")]
  nodup := by decide

theorem stringify_vector : vectorClaims.stringify Whole = .ok vectorPayload := by
  decide

theorem readClaims_vector :
    readClaims Whole (b64url (asBytes vectorPayload)) = .ok vectorClaims := by
  have hsound : vectorClaims.Sound Whole := by
    intro e he
    simp only [vectorClaims, List.mem_cons, List.not_mem_nil, or_false] at he
    rcases he with rfl | rfl | rfl
    · exact Or.inl ⟨"1234567890".toList, by simp, by simp⟩
    · exact Or.inl ⟨"John Doe".toList, by simp, by simp⟩
    · exact Or.inr ⟨by simp, by simp⟩
  refine readClaims_spec serdeLaws_whole hsound stringify_vector fun field _ => ⟨(), ?_⟩
  cases field <;> decide

end Deka.Jwt
