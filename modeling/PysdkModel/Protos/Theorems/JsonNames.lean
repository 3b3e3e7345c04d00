import PysdkModel.Protos.JsonNames

namespace Protos

namespace JsonField

variable {upper : CodePoint → Text} {f g : JsonField} {key : Text} {names : Dict Text JsonField}

theorem get?_declare_of_claims (h : f.Claims upper key) : (declare upper names f).get? key = some f := by
  obtain ⟨hp, h⟩ := h
  rw [declare, if_pos hp, Dict.get?_set, Dict.get?_set]
  rcases h with h | h <;> simp [h]

theorem get?_declare_of_not_claims (h : ¬f.Claims upper key) : (declare upper names f).get? key = names.get? key := by
  unfold declare
  split
  case isTrue hp =>
    have hk : key ≠ f.protoName ∧ key ≠ f.json upper := by simpa [Claims, hp] using h
    rw [Dict.get?_set, Dict.get?_set, if_neg hk.2, if_neg hk.1]
  case isFalse => rfl

theorem get?_foldl_declare (key : Text) (names : Dict Text JsonField) (fields : List JsonField) :
    (∃ g ∈ fields, g.Claims upper key ∧ (fields.foldl (declare upper) names).get? key = some g) ∨
    (∀ g ∈ fields, ¬g.Claims upper key) ∧ (fields.foldl (declare upper) names).get? key = names.get? key := by
  induction fields generalizing names
  case nil => exact .inr ⟨by simp, rfl⟩
  case cons f fields ih =>
    rw [List.foldl_cons]
    rcases ih (declare upper names f) with ⟨g, hg, hc, he⟩ | ⟨hn, he⟩
    case inl => exact .inl ⟨g, List.mem_cons_of_mem f hg, hc, he⟩
    rw [he]
    by_cases hf : f.Claims upper key
    · exact .inl ⟨f, List.mem_cons_self, hf, get?_declare_of_claims hf⟩
    · exact .inr ⟨List.forall_mem_cons.mpr ⟨hf, hn⟩, get?_declare_of_not_claims hf⟩

theorem claims_emittedKey {preserving : Bool} (h : f.isPublic) : f.Claims upper (f.emittedKey upper preserving) := by
  refine ⟨h, ?_⟩
  cases preserving
  case false => exact .inr rfl
  case true => exact .inl rfl

theorem get?_names_iff {before after : List JsonField} (hf : f ∉ after) (hc : f.Claims upper key) :
    (JsonField.names upper (before ++ f :: after)).get? key = some f ↔ ∀ g ∈ after, ¬g.Claims upper key := by
  rw [JsonField.names, List.foldl_append, List.foldl_cons]
  rcases get?_foldl_declare key _ after with ⟨g, hg, hgc, he⟩ | ⟨hn, he⟩
  · rw [he]
    refine iff_of_false ?_ fun h => h g hg hgc
    rintro ⟨⟩
    exact hf hg
  · rw [he, get?_declare_of_claims hc]
    exact iff_of_true rfl hn

end JsonField

section

variable {upper : CodePoint → Text} {o : JsonOptions} {m : Message} {f g : JsonField} {key : Text}
  {result : Dict Text JsonValue} {before after : List JsonField}

theorem contains_set {k : Text} {v : JsonValue} (h : result.contains key ∨ key = k) :
    (result.set k v).contains key := by
  rw [Dict.contains_iff, Dict.get?_set]
  split
  case isTrue => exact ⟨v, rfl⟩
  case isFalse hk => exact Dict.contains_iff.mp (h.resolve_right hk)

theorem contains_emitField (h : result.contains key) : (emitField upper o m result f).contains key := by
  unfold emitField
  split
  case h_1 =>
    split
    · exact contains_set (.inl h)
    · exact h
  case h_2 => exact h

theorem contains_emitExtension {e : JsonExtension} (h : result.contains key) :
    (emitExtension o m result e).contains key := by
  unfold emitExtension
  split
  case h_1 =>
    split
    · exact contains_set (.inl h)
    · exact h
  case h_2 => exact h

theorem contains_foldl {α : Type} {step : Dict Text JsonValue → α → Dict Text JsonValue} {as : List α}
    (hs : ∀ {result a}, result.contains key → (step result a).contains key) (h : result.contains key) :
    (as.foldl step result).contains key := by
  induction as generalizing result
  case nil => exact h
  case cons a as ih => exact ih (hs h)

theorem contains_emitField_self (h : Emits o m f) :
    (emitField upper o m result f).contains (f.emittedKey upper o.preservingProtoFieldName) := by
  obtain ⟨v, hv⟩ := Option.isSome_iff_exists.mp h.2
  rw [emitField, hv]
  dsimp only
  rw [if_pos h.1]
  exact contains_set (.inr rfl)

theorem contains_messageToDict {extensions : List JsonExtension} (h : Emits o m f) :
    (messageToDict upper o m (before ++ f :: after) extensions).contains
      (f.emittedKey upper o.preservingProtoFieldName) := by
  rw [messageToDict, List.foldl_append, List.foldl_cons]
  exact contains_foldl contains_emitExtension <| contains_foldl contains_emitField <| contains_emitField_self h

theorem not_claims_iff {preserving : Bool} (hp : g.protoName ≠ f.protoName) (hj : g.json upper ≠ f.json upper) :
    ¬g.Claims upper (f.emittedKey upper preserving) ↔
      (g.isPublic → g.emittedKey upper (!preserving) ≠ f.emittedKey upper preserving) := by
  cases preserving
  case false => simp [JsonField.Claims, JsonField.emittedKey, hj.symm, @eq_comm _ (f.json upper)]
  case true => simp [JsonField.Claims, JsonField.emittedKey, hp.symm, @eq_comm _ f.protoName]

-- The key that is emitted for a field leads back to it if and only if no field that is declared later has it
-- as its other name: as its JSON name where proto names are emitted, and as its proto name otherwise.
theorem resolves_iff (upper : CodePoint → Text) (o : JsonOptions) (m : Message) (f : JsonField)
    (before after : List JsonField) (extensions : List JsonExtension)
    (hp : ((before ++ f :: after).map fun g => g.protoName).Nodup)
    (hj : ((before ++ f :: after).map fun g => g.json upper).Nodup) (he : Emits o m f) :
    (messageToDict upper o m (before ++ f :: after) extensions).contains
      (f.emittedKey upper o.preservingProtoFieldName) ∧
    ((JsonField.names upper (before ++ f :: after)).get? (f.emittedKey upper o.preservingProtoFieldName) = some f ↔
      ∀ g ∈ after, g.isPublic →
        g.emittedKey upper (!o.preservingProtoFieldName) ≠ f.emittedKey upper o.preservingProtoFieldName) := by
  refine ⟨contains_messageToDict he, ?_⟩
  have later {α : Type} {name : JsonField → α} (h : ((before ++ f :: after).map name).Nodup) :
      ∀ g ∈ after, name g ≠ name f := by
    intro g hg heq
    rw [List.map_append, List.map_cons] at h
    exact (List.nodup_cons.mp h.of_append_right).1 (heq ▸ List.mem_map_of_mem hg)
  have hf : f ∉ after := fun hf => later hp f hf rfl
  rw [JsonField.get?_names_iff hf (JsonField.claims_emittedKey he.1)]
  exact forall₂_congr fun g hg => not_claims_iff (later hp g hg) (later hj g hg)

end

def JsonField.plain (number : Nat) (protoName : Text) (jsonName : Option Text) : JsonField where
  protoName := protoName
  number := number
  codec := .int32
  repeated := false
  packed := false
  explicitPresence := false
  required := false
  oneof := none
  defaultFactory := none
  mapKeyCodec := none
  immutable := false
  immutableOneof := false
  jsonName := jsonName
  isPublic := true

def JsonOptions.names (preserving : Bool) : JsonOptions where
  preservingProtoFieldName := preserving
  alwaysPrintFieldsWithNoPresence := true
  encodeValue := fun _ _ => .null
  encodeMapKey := fun _ _ => []

-- `int32 y = 2 [json_name = "z"]` and after it `int32 x = 1 [json_name = "y"]`
theorem earlierName_resolved :
    (JsonField.names (fun c => [c]) [.plain 2 [0x79] (some [0x7A]), .plain 1 [0x78] (some [0x79])]).get? [0x79] =
      some (.plain 1 [0x78] (some [0x79])) := by
  have h := resolves_iff (fun c => [c]) (.names false) (.empty 0) (.plain 1 [0x78] (some [0x79]))
    [.plain 2 [0x79] (some [0x7A])] [] [] (by decide) (by decide) ⟨rfl, rfl⟩
  exact h.2.mpr (by simp)

theorem laterName_resolved :
    ∃ fields : List JsonField, (fields.map fun g => g.protoName).Nodup ∧
      (fields.map fun g => g.json fun c => [c]).Nodup ∧
      ∃ f ∈ fields, ∃ g ∈ fields, f.number ≠ g.number ∧ Emits (.names false) (.empty 0) f ∧
        (JsonField.names (fun c => [c]) fields).get? (f.emittedKey (fun c => [c]) false) = some g := by
  refine ⟨[.plain 1 [0x78] (some [0x79]), .plain 2 [0x79] (some [0x7A])], by decide, by decide, ?_⟩
  refine ⟨_, List.mem_cons_self, .plain 2 [0x79] (some [0x7A]), by simp, by decide, ⟨rfl, rfl⟩, ?_⟩
  rfl

end Protos
