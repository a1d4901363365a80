/-!
# `TypeFour.Elementary` — the functions of the mathematical library

The elementary functions come from the machine, and nothing but their names is known of most of
them. They are gathered in one record that the operators take as a parameter, so that a statement
about the operators says what it asks of them.

## Contents
- `Elementary` — the functions.
- `Elementary.machine` — those of the machine.
-/

namespace TypeFour

/-- The elementary functions that operators compute with. Angles are in radians. -/
structure Elementary where
  sqrt : Float → Float
  sin : Float → Float
  cos : Float → Float
  /-- The angle of the point with ordinate `y` and abscissa `x`. -/
  atan2 : (y x : Float) → Float
  pow : (base exponent : Float) → Float
  ln : Float → Float
  log10 : Float → Float

/-- The functions of the machine that runs the program. -/
def Elementary.machine : Elementary where
  sqrt := Float.sqrt
  sin := Float.sin
  cos := Float.cos
  atan2 := Float.atan2
  pow := Float.pow
  ln := Float.log
  log10 := Float.log10

end TypeFour
