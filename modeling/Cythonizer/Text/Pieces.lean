namespace Cythonizer.Text.Pieces

def pieces (separator : Char) : List Char → List (List Char)
  | [] => [[]]
  | c :: rest =>
    if c = separator then [] :: pieces separator rest
    else
      match pieces separator rest with
      | [] => [[c]]
      | piece :: more => (c :: piece) :: more

def spread (separator : Char) : List (List Char) → List Char
  | [] => []
  | [piece] => piece
  | piece :: rest => piece ++ separator :: spread separator rest

theorem pieces_ne_nil (separator : Char) (text : List Char) : pieces separator text ≠ [] := by
  cases text with
  | nil => simp [pieces]
  | cons c rest =>
      unfold pieces
      split
      · simp
      · split <;> simp

theorem spread_cons {separator : Char} {pieces : List (List Char)} (piece : List Char)
    (h : pieces ≠ []) :
    spread separator (piece :: pieces) = piece ++ separator :: spread separator pieces := by
  cases pieces with
  | nil => exact absurd rfl h
  | cons => rfl

theorem spread_pieces (separator : Char) (text : List Char) :
    spread separator (pieces separator text) = text := by
  induction text with
  | nil => rfl
  | cons c rest ih =>
      unfold pieces
      split
      · rename_i h
        rw [spread_cons [] (pieces_ne_nil separator rest), ih, h]
        rfl
      · split
        · rename_i h
          exact absurd h (pieces_ne_nil separator rest)
        · rename_i piece more h
          rw [h] at ih
          cases more with
          | nil => simpa [spread] using ih
          | cons => simpa [spread] using ih

end Cythonizer.Text.Pieces
