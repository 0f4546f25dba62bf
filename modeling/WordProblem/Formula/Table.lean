import WordProblem.Formula.Counting

namespace WordProblem.Formula

def pi : Float := 3.141592653589793

def heron (a b c : Float) : Float :=
  let s := (a + b + c) / 2.0
  (s * (s - a) * (s - b) * (s - c)).pow 0.5

def planeFigures : List Formula :=
  [⟨"square_area", 1, .unary fun a => .ok (a * a)⟩,
    ⟨"square_perimeter", 1, .unary fun a => .ok (4.0 * a)⟩,
    ⟨"square_edge_by_perimeter", 1, .unary fun p => .ok (p / 4.0)⟩,
    ⟨"square_edge_by_area", 1, .unary fun area => .ok (area.pow 0.5)⟩,
    ⟨"rhombus_perimeter", 1, .unary fun a => .ok (4.0 * a)⟩,
    ⟨"circle_area", 1, .unary fun r => .ok (pi * r * r)⟩,
    ⟨"circumface", 1, .unary fun r => .ok (2.0 * pi * r)⟩]

def solidFigures : List Formula :=
  [⟨"surface_sphere", 1, .unary fun r => .ok (4.0 * pi * r * r)⟩,
    ⟨"volume_sphere", 1, .unary fun r => .ok (4.0 / 3.0 * pi * Binary64.power r 3)⟩,
    ⟨"surface_cube", 1, .unary fun a => .ok (6.0 * a * a)⟩,
    ⟨"volume_cube", 1, .unary fun a => .ok (Binary64.power a 3)⟩,
    ⟨"cube_edge_by_volume", 1, .unary fun v => .ok (v.pow (1.0 / 3.0))⟩]

def twoLengths : List Formula :=
  [⟨"rectangle_area", 2, .binary fun a b => .ok (a * b)⟩,
    ⟨"rectangle_perimeter", 2, .binary fun a b => .ok (2.0 * (a + b))⟩,
    ⟨"rhombus_area", 2, .binary fun a b => .ok (a * b / 2.0)⟩,
    ⟨"triangle_area", 2, .binary fun base height => .ok (base * height / 2.0)⟩,
    ⟨"diagonal", 2, .binary fun a b => .ok ((a * a + b * b).pow 0.5)⟩,
    ⟨"surface_cylinder", 2, .binary fun r h => .ok (2.0 * pi * r * (r + h))⟩,
    ⟨"volume_cylinder", 2, .binary fun r h => .ok (pi * r * r * h)⟩,
    ⟨"volume_cone", 2, .binary fun r h => .ok (pi / 3.0 * r * r * h)⟩]

def threeLengths : List Formula :=
  [⟨"triangle_area_three_edges", 3, .ternary fun a b c => .ok (heron a b c)⟩,
    ⟨"triangle_perimeter", 3, .ternary fun a b c => .ok (a + b + c)⟩,
    ⟨"quadrilateral_area", 3, .ternary fun h a b => .ok (h * (a + b) / 2.0)⟩,
    ⟨"volume_rectangular_prism", 3, .ternary fun l w h => .ok (l * w * h)⟩,
    ⟨"surface_rectangular_prism", 3, .ternary fun l w h => .ok (2.0 * (l * w + w * h + l * h))⟩]

def figures : List Formula := planeFigures ++ solidFigures ++ twoLengths ++ threeLengths

def table : List Formula := elementary ++ counting ++ proportion ++ figures

def find? (name : String) : Option Formula := table.find? fun f => f.name == name

theorem table_names_distinct : (table.map name).Nodup := by decide +kernel

theorem find?_name {name : String} {f : Formula} (h : find? name = some f) : f.name = name := by
  simpa using List.find?_some h

end WordProblem.Formula
