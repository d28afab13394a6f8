import XmlRecords.Time.History

/-!
# Zones with a history

The eras of the named zones that change their offset, with the daylight saving
rules they follow.  Offsets, amounts and times of day are in seconds.
-/

namespace XmlRecords.ZoneTable

/-- Daylight saving in New York City. -/
def newYork : List SavingRule :=
  [⟨1920, 1920, ⟨3, .last 6, 7200, .wall⟩, 3600⟩,
    ⟨1920, 1920, ⟨10, .last 6, 7200, .wall⟩, 0⟩,
    ⟨1921, 1966, ⟨4, .last 6, 7200, .wall⟩, 3600⟩,
    ⟨1921, 1954, ⟨9, .last 6, 7200, .wall⟩, 0⟩,
    ⟨1955, 1966, ⟨10, .last 6, 7200, .wall⟩, 0⟩]

/-- Daylight saving in the United States. -/
def unitedStates : List SavingRule :=
  [⟨1918, 1919, ⟨3, .last 6, 7200, .wall⟩, 3600⟩,
    ⟨1918, 1919, ⟨10, .last 6, 7200, .wall⟩, 0⟩,
    ⟨1942, 1942, ⟨2, .on 9, 7200, .wall⟩, 3600⟩,
    ⟨1945, 1945, ⟨8, .on 14, 82800, .universal⟩, 3600⟩,
    ⟨1945, 1945, ⟨9, .on 30, 7200, .wall⟩, 0⟩,
    ⟨1967, 2006, ⟨10, .last 6, 7200, .wall⟩, 0⟩,
    ⟨1967, 1973, ⟨4, .last 6, 7200, .wall⟩, 3600⟩,
    ⟨1974, 1974, ⟨1, .on 6, 7200, .wall⟩, 3600⟩,
    ⟨1975, 1975, ⟨2, .last 6, 7200, .wall⟩, 3600⟩,
    ⟨1976, 1986, ⟨4, .last 6, 7200, .wall⟩, 3600⟩,
    ⟨1987, 2006, ⟨4, .onOrAfter 6 1, 7200, .wall⟩, 3600⟩,
    ⟨2007, lastRuleYear, ⟨3, .onOrAfter 6 8, 7200, .wall⟩, 3600⟩,
    ⟨2007, lastRuleYear, ⟨11, .onOrAfter 6 1, 7200, .wall⟩, 0⟩]

/-- Daylight saving in Great Britain. -/
def britain : List SavingRule :=
  [⟨1916, 1916, ⟨5, .on 21, 7200, .standard⟩, 3600⟩,
    ⟨1916, 1916, ⟨10, .on 1, 7200, .standard⟩, 0⟩,
    ⟨1917, 1917, ⟨4, .on 8, 7200, .standard⟩, 3600⟩,
    ⟨1917, 1917, ⟨9, .on 17, 7200, .standard⟩, 0⟩,
    ⟨1918, 1918, ⟨3, .on 24, 7200, .standard⟩, 3600⟩,
    ⟨1918, 1918, ⟨9, .on 30, 7200, .standard⟩, 0⟩,
    ⟨1919, 1919, ⟨3, .on 30, 7200, .standard⟩, 3600⟩,
    ⟨1919, 1919, ⟨9, .on 29, 7200, .standard⟩, 0⟩,
    ⟨1920, 1920, ⟨3, .on 28, 7200, .standard⟩, 3600⟩,
    ⟨1920, 1920, ⟨10, .on 25, 7200, .standard⟩, 0⟩,
    ⟨1921, 1921, ⟨4, .on 3, 7200, .standard⟩, 3600⟩,
    ⟨1921, 1921, ⟨10, .on 3, 7200, .standard⟩, 0⟩,
    ⟨1922, 1922, ⟨3, .on 26, 7200, .standard⟩, 3600⟩,
    ⟨1922, 1922, ⟨10, .on 8, 7200, .standard⟩, 0⟩,
    ⟨1923, 1923, ⟨4, .onOrAfter 6 16, 7200, .standard⟩, 3600⟩,
    ⟨1923, 1924, ⟨9, .onOrAfter 6 16, 7200, .standard⟩, 0⟩,
    ⟨1924, 1924, ⟨4, .onOrAfter 6 9, 7200, .standard⟩, 3600⟩,
    ⟨1925, 1926, ⟨4, .onOrAfter 6 16, 7200, .standard⟩, 3600⟩,
    ⟨1925, 1938, ⟨10, .onOrAfter 6 2, 7200, .standard⟩, 0⟩,
    ⟨1927, 1927, ⟨4, .onOrAfter 6 9, 7200, .standard⟩, 3600⟩,
    ⟨1928, 1929, ⟨4, .onOrAfter 6 16, 7200, .standard⟩, 3600⟩,
    ⟨1930, 1930, ⟨4, .onOrAfter 6 9, 7200, .standard⟩, 3600⟩,
    ⟨1931, 1932, ⟨4, .onOrAfter 6 16, 7200, .standard⟩, 3600⟩,
    ⟨1933, 1933, ⟨4, .onOrAfter 6 9, 7200, .standard⟩, 3600⟩,
    ⟨1934, 1934, ⟨4, .onOrAfter 6 16, 7200, .standard⟩, 3600⟩,
    ⟨1935, 1935, ⟨4, .onOrAfter 6 9, 7200, .standard⟩, 3600⟩,
    ⟨1936, 1937, ⟨4, .onOrAfter 6 16, 7200, .standard⟩, 3600⟩,
    ⟨1938, 1938, ⟨4, .onOrAfter 6 9, 7200, .standard⟩, 3600⟩,
    ⟨1939, 1939, ⟨4, .onOrAfter 6 16, 7200, .standard⟩, 3600⟩,
    ⟨1939, 1939, ⟨11, .onOrAfter 6 16, 7200, .standard⟩, 0⟩,
    ⟨1940, 1940, ⟨2, .onOrAfter 6 23, 7200, .standard⟩, 3600⟩,
    ⟨1941, 1941, ⟨5, .onOrAfter 6 2, 3600, .standard⟩, 7200⟩,
    ⟨1941, 1943, ⟨8, .onOrAfter 6 9, 3600, .standard⟩, 3600⟩,
    ⟨1942, 1944, ⟨4, .onOrAfter 6 2, 3600, .standard⟩, 7200⟩,
    ⟨1944, 1944, ⟨9, .onOrAfter 6 16, 3600, .standard⟩, 3600⟩,
    ⟨1945, 1945, ⟨4, .onOrAfter 0 2, 3600, .standard⟩, 7200⟩,
    ⟨1945, 1945, ⟨7, .onOrAfter 6 9, 3600, .standard⟩, 3600⟩,
    ⟨1945, 1946, ⟨10, .onOrAfter 6 2, 7200, .standard⟩, 0⟩,
    ⟨1946, 1946, ⟨4, .onOrAfter 6 9, 7200, .standard⟩, 3600⟩,
    ⟨1947, 1947, ⟨3, .on 16, 7200, .standard⟩, 3600⟩,
    ⟨1947, 1947, ⟨4, .on 13, 3600, .standard⟩, 7200⟩,
    ⟨1947, 1947, ⟨8, .on 10, 3600, .standard⟩, 3600⟩,
    ⟨1947, 1947, ⟨11, .on 2, 7200, .standard⟩, 0⟩,
    ⟨1948, 1948, ⟨3, .on 14, 7200, .standard⟩, 3600⟩,
    ⟨1948, 1948, ⟨10, .on 31, 7200, .standard⟩, 0⟩,
    ⟨1949, 1949, ⟨4, .on 3, 7200, .standard⟩, 3600⟩,
    ⟨1949, 1949, ⟨10, .on 30, 7200, .standard⟩, 0⟩,
    ⟨1950, 1952, ⟨4, .onOrAfter 6 14, 7200, .standard⟩, 3600⟩,
    ⟨1950, 1952, ⟨10, .onOrAfter 6 21, 7200, .standard⟩, 0⟩,
    ⟨1953, 1953, ⟨4, .onOrAfter 6 16, 7200, .standard⟩, 3600⟩,
    ⟨1953, 1960, ⟨10, .onOrAfter 6 2, 7200, .standard⟩, 0⟩,
    ⟨1954, 1954, ⟨4, .onOrAfter 6 9, 7200, .standard⟩, 3600⟩,
    ⟨1955, 1956, ⟨4, .onOrAfter 6 16, 7200, .standard⟩, 3600⟩,
    ⟨1957, 1957, ⟨4, .onOrAfter 6 9, 7200, .standard⟩, 3600⟩,
    ⟨1958, 1959, ⟨4, .onOrAfter 6 16, 7200, .standard⟩, 3600⟩,
    ⟨1960, 1960, ⟨4, .onOrAfter 6 9, 7200, .standard⟩, 3600⟩,
    ⟨1961, 1963, ⟨3, .last 6, 7200, .standard⟩, 3600⟩,
    ⟨1961, 1968, ⟨10, .onOrAfter 6 23, 7200, .standard⟩, 0⟩,
    ⟨1964, 1967, ⟨3, .onOrAfter 6 19, 7200, .standard⟩, 3600⟩,
    ⟨1968, 1968, ⟨2, .on 18, 7200, .standard⟩, 3600⟩,
    ⟨1972, 1980, ⟨3, .onOrAfter 6 16, 7200, .standard⟩, 3600⟩,
    ⟨1972, 1980, ⟨10, .onOrAfter 6 23, 7200, .standard⟩, 0⟩,
    ⟨1981, 1995, ⟨3, .last 6, 3600, .universal⟩, 3600⟩,
    ⟨1981, 1989, ⟨10, .onOrAfter 6 23, 3600, .universal⟩, 0⟩,
    ⟨1990, 1995, ⟨10, .onOrAfter 6 22, 3600, .universal⟩, 0⟩]

/-- Daylight saving in the European Union. -/
def europeanUnion : List SavingRule :=
  [⟨1977, 1980, ⟨4, .onOrAfter 6 1, 3600, .universal⟩, 3600⟩,
    ⟨1977, 1977, ⟨9, .last 6, 3600, .universal⟩, 0⟩,
    ⟨1978, 1978, ⟨10, .on 1, 3600, .universal⟩, 0⟩,
    ⟨1979, 1995, ⟨9, .last 6, 3600, .universal⟩, 0⟩,
    ⟨1981, lastRuleYear, ⟨3, .last 6, 3600, .universal⟩, 3600⟩,
    ⟨1996, lastRuleYear, ⟨10, .last 6, 3600, .universal⟩, 0⟩]

/-- Daylight saving in central Europe. -/
def centralEurope : List SavingRule :=
  [⟨1916, 1916, ⟨4, .on 30, 82800, .wall⟩, 3600⟩,
    ⟨1916, 1916, ⟨10, .on 1, 3600, .wall⟩, 0⟩,
    ⟨1917, 1918, ⟨4, .onOrAfter 0 15, 7200, .standard⟩, 3600⟩,
    ⟨1917, 1918, ⟨9, .onOrAfter 0 15, 7200, .standard⟩, 0⟩,
    ⟨1940, 1940, ⟨4, .on 1, 7200, .standard⟩, 3600⟩,
    ⟨1942, 1942, ⟨11, .on 2, 7200, .standard⟩, 0⟩,
    ⟨1943, 1943, ⟨3, .on 29, 7200, .standard⟩, 3600⟩,
    ⟨1943, 1943, ⟨10, .on 4, 7200, .standard⟩, 0⟩,
    ⟨1944, 1945, ⟨4, .onOrAfter 0 1, 7200, .standard⟩, 3600⟩,
    ⟨1944, 1944, ⟨10, .on 2, 7200, .standard⟩, 0⟩,
    ⟨1945, 1945, ⟨9, .on 16, 7200, .standard⟩, 0⟩,
    ⟨1977, 1980, ⟨4, .onOrAfter 6 1, 7200, .standard⟩, 3600⟩,
    ⟨1977, 1977, ⟨9, .last 6, 7200, .standard⟩, 0⟩,
    ⟨1978, 1978, ⟨10, .on 1, 7200, .standard⟩, 0⟩,
    ⟨1979, 1995, ⟨9, .last 6, 7200, .standard⟩, 0⟩,
    ⟨1981, lastRuleYear, ⟨3, .last 6, 7200, .standard⟩, 3600⟩,
    ⟨1996, lastRuleYear, ⟨10, .last 6, 7200, .standard⟩, 0⟩]

/-- Daylight saving in Germany after 1945. -/
def germany : List SavingRule :=
  [⟨1946, 1946, ⟨4, .on 14, 7200, .standard⟩, 3600⟩,
    ⟨1946, 1946, ⟨10, .on 7, 7200, .standard⟩, 0⟩,
    ⟨1947, 1949, ⟨10, .onOrAfter 6 1, 7200, .standard⟩, 0⟩,
    ⟨1947, 1947, ⟨4, .on 6, 10800, .standard⟩, 3600⟩,
    ⟨1947, 1947, ⟨5, .on 11, 7200, .standard⟩, 7200⟩,
    ⟨1947, 1947, ⟨6, .on 29, 10800, .wall⟩, 3600⟩,
    ⟨1948, 1948, ⟨4, .on 18, 7200, .standard⟩, 3600⟩,
    ⟨1949, 1949, ⟨4, .on 10, 7200, .standard⟩, 3600⟩]

/-- Daylight saving in the Soviet zone in 1945. -/
def sovietZone : List SavingRule :=
  [⟨1945, 1945, ⟨5, .on 24, 7200, .wall⟩, 7200⟩,
    ⟨1945, 1945, ⟨9, .on 24, 10800, .wall⟩, 3600⟩,
    ⟨1945, 1945, ⟨11, .on 18, 7200, .standard⟩, 0⟩]

/-- Daylight saving in Japan. -/
def japan : List SavingRule :=
  [⟨1948, 1948, ⟨5, .onOrAfter 5 1, 86400, .wall⟩, 3600⟩,
    ⟨1948, 1951, ⟨9, .onOrAfter 6 9, 3600, .wall⟩, 0⟩,
    ⟨1949, 1949, ⟨4, .onOrAfter 5 1, 86400, .wall⟩, 3600⟩,
    ⟨1950, 1951, ⟨5, .onOrAfter 5 1, 86400, .wall⟩, 3600⟩]

/-- Daylight saving in Lord Howe Island. -/
def lordHowe : List SavingRule :=
  [⟨1981, 1984, ⟨10, .last 6, 7200, .wall⟩, 3600⟩,
    ⟨1982, 1985, ⟨3, .onOrAfter 6 1, 7200, .wall⟩, 0⟩,
    ⟨1985, 1985, ⟨10, .last 6, 7200, .wall⟩, 1800⟩,
    ⟨1986, 1989, ⟨3, .onOrAfter 6 15, 7200, .wall⟩, 0⟩,
    ⟨1986, 1986, ⟨10, .on 19, 7200, .wall⟩, 1800⟩,
    ⟨1987, 1999, ⟨10, .last 6, 7200, .wall⟩, 1800⟩,
    ⟨1990, 1995, ⟨3, .onOrAfter 6 1, 7200, .wall⟩, 0⟩,
    ⟨1996, 2005, ⟨3, .last 6, 7200, .wall⟩, 0⟩,
    ⟨2000, 2000, ⟨8, .last 6, 7200, .wall⟩, 1800⟩,
    ⟨2001, 2007, ⟨10, .last 6, 7200, .wall⟩, 1800⟩,
    ⟨2006, 2006, ⟨4, .onOrAfter 6 1, 7200, .wall⟩, 0⟩,
    ⟨2007, 2007, ⟨3, .last 6, 7200, .wall⟩, 0⟩,
    ⟨2008, lastRuleYear, ⟨4, .onOrAfter 6 1, 7200, .wall⟩, 0⟩,
    ⟨2008, lastRuleYear, ⟨10, .onOrAfter 6 1, 7200, .wall⟩, 1800⟩]

/-- Daylight saving in Samoa. -/
def samoa : List SavingRule :=
  [⟨2010, 2010, ⟨9, .last 6, 0, .wall⟩, 3600⟩,
    ⟨2011, 2011, ⟨4, .onOrAfter 5 1, 14400, .wall⟩, 0⟩,
    ⟨2011, 2011, ⟨9, .last 5, 10800, .wall⟩, 3600⟩,
    ⟨2012, 2021, ⟨4, .onOrAfter 6 1, 14400, .wall⟩, 0⟩,
    ⟨2012, 2020, ⟨9, .last 6, 10800, .wall⟩, 3600⟩]

/-- Daylight saving in Brazil. -/
def brazil : List SavingRule :=
  [⟨1931, 1931, ⟨10, .on 3, 39600, .wall⟩, 3600⟩,
    ⟨1932, 1933, ⟨4, .on 1, 0, .wall⟩, 0⟩,
    ⟨1932, 1932, ⟨10, .on 3, 0, .wall⟩, 3600⟩,
    ⟨1949, 1952, ⟨12, .on 1, 0, .wall⟩, 3600⟩,
    ⟨1950, 1950, ⟨4, .on 16, 3600, .wall⟩, 0⟩,
    ⟨1951, 1952, ⟨4, .on 1, 0, .wall⟩, 0⟩,
    ⟨1953, 1953, ⟨3, .on 1, 0, .wall⟩, 0⟩,
    ⟨1963, 1963, ⟨12, .on 9, 0, .wall⟩, 3600⟩,
    ⟨1964, 1964, ⟨3, .on 1, 0, .wall⟩, 0⟩,
    ⟨1965, 1965, ⟨1, .on 31, 0, .wall⟩, 3600⟩,
    ⟨1965, 1965, ⟨3, .on 31, 0, .wall⟩, 0⟩,
    ⟨1965, 1965, ⟨12, .on 1, 0, .wall⟩, 3600⟩,
    ⟨1966, 1968, ⟨3, .on 1, 0, .wall⟩, 0⟩,
    ⟨1966, 1967, ⟨11, .on 1, 0, .wall⟩, 3600⟩,
    ⟨1985, 1985, ⟨11, .on 2, 0, .wall⟩, 3600⟩,
    ⟨1986, 1986, ⟨3, .on 15, 0, .wall⟩, 0⟩,
    ⟨1986, 1986, ⟨10, .on 25, 0, .wall⟩, 3600⟩,
    ⟨1987, 1987, ⟨2, .on 14, 0, .wall⟩, 0⟩,
    ⟨1987, 1987, ⟨10, .on 25, 0, .wall⟩, 3600⟩,
    ⟨1988, 1988, ⟨2, .on 7, 0, .wall⟩, 0⟩,
    ⟨1988, 1988, ⟨10, .on 16, 0, .wall⟩, 3600⟩,
    ⟨1989, 1989, ⟨1, .on 29, 0, .wall⟩, 0⟩,
    ⟨1989, 1989, ⟨10, .on 15, 0, .wall⟩, 3600⟩,
    ⟨1990, 1990, ⟨2, .on 11, 0, .wall⟩, 0⟩,
    ⟨1990, 1990, ⟨10, .on 21, 0, .wall⟩, 3600⟩,
    ⟨1991, 1991, ⟨2, .on 17, 0, .wall⟩, 0⟩,
    ⟨1991, 1991, ⟨10, .on 20, 0, .wall⟩, 3600⟩,
    ⟨1992, 1992, ⟨2, .on 9, 0, .wall⟩, 0⟩,
    ⟨1992, 1992, ⟨10, .on 25, 0, .wall⟩, 3600⟩,
    ⟨1993, 1993, ⟨1, .on 31, 0, .wall⟩, 0⟩,
    ⟨1993, 1995, ⟨10, .onOrAfter 6 11, 0, .wall⟩, 3600⟩,
    ⟨1994, 1995, ⟨2, .onOrAfter 6 15, 0, .wall⟩, 0⟩,
    ⟨1996, 1996, ⟨2, .on 11, 0, .wall⟩, 0⟩,
    ⟨1996, 1996, ⟨10, .on 6, 0, .wall⟩, 3600⟩,
    ⟨1997, 1997, ⟨2, .on 16, 0, .wall⟩, 0⟩,
    ⟨1997, 1997, ⟨10, .on 6, 0, .wall⟩, 3600⟩,
    ⟨1998, 1998, ⟨3, .on 1, 0, .wall⟩, 0⟩,
    ⟨1998, 1998, ⟨10, .on 11, 0, .wall⟩, 3600⟩,
    ⟨1999, 1999, ⟨2, .on 21, 0, .wall⟩, 0⟩,
    ⟨1999, 1999, ⟨10, .on 3, 0, .wall⟩, 3600⟩,
    ⟨2000, 2000, ⟨2, .on 27, 0, .wall⟩, 0⟩,
    ⟨2000, 2001, ⟨10, .onOrAfter 6 8, 0, .wall⟩, 3600⟩,
    ⟨2001, 2006, ⟨2, .onOrAfter 6 15, 0, .wall⟩, 0⟩,
    ⟨2002, 2002, ⟨11, .on 3, 0, .wall⟩, 3600⟩,
    ⟨2003, 2003, ⟨10, .on 19, 0, .wall⟩, 3600⟩,
    ⟨2004, 2004, ⟨11, .on 2, 0, .wall⟩, 3600⟩,
    ⟨2005, 2005, ⟨10, .on 16, 0, .wall⟩, 3600⟩,
    ⟨2006, 2006, ⟨11, .on 5, 0, .wall⟩, 3600⟩,
    ⟨2007, 2007, ⟨2, .on 25, 0, .wall⟩, 0⟩,
    ⟨2007, 2007, ⟨10, .onOrAfter 6 8, 0, .wall⟩, 3600⟩,
    ⟨2008, 2017, ⟨10, .onOrAfter 6 15, 0, .wall⟩, 3600⟩,
    ⟨2008, 2011, ⟨2, .onOrAfter 6 15, 0, .wall⟩, 0⟩,
    ⟨2012, 2012, ⟨2, .onOrAfter 6 22, 0, .wall⟩, 0⟩,
    ⟨2013, 2014, ⟨2, .onOrAfter 6 15, 0, .wall⟩, 0⟩,
    ⟨2015, 2015, ⟨2, .onOrAfter 6 22, 0, .wall⟩, 0⟩,
    ⟨2016, 2019, ⟨2, .onOrAfter 6 15, 0, .wall⟩, 0⟩,
    ⟨2018, 2018, ⟨11, .onOrAfter 6 1, 0, .wall⟩, 3600⟩]

/-- The eras of New York. -/
def newYorkEras : List Era :=
  [⟨-17762, .constant 0, some (1883, ⟨11, .on 18, 61200, .universal⟩)⟩,
    ⟨-18000, .rules unitedStates, some (1920, ⟨1, .on 1, 0, .wall⟩)⟩,
    ⟨-18000, .rules newYork, some (1942, ⟨1, .on 1, 0, .wall⟩)⟩,
    ⟨-18000, .rules unitedStates, some (1946, ⟨1, .on 1, 0, .wall⟩)⟩,
    ⟨-18000, .rules newYork, some (1967, ⟨1, .on 1, 0, .wall⟩)⟩,
    ⟨-18000, .rules unitedStates, none⟩]

/-- The eras of São Paulo. -/
def saoPauloEras : List Era :=
  [⟨-11188, .constant 0, some (1914, ⟨1, .on 1, 0, .wall⟩)⟩,
    ⟨-10800, .rules brazil, some (1963, ⟨10, .on 23, 0, .wall⟩)⟩,
    ⟨-10800, .constant 3600, some (1964, ⟨1, .on 1, 0, .wall⟩)⟩,
    ⟨-10800, .rules brazil, none⟩]

/-- The eras of Kathmandu. -/
def kathmanduEras : List Era :=
  [⟨20476, .constant 0, some (1920, ⟨1, .on 1, 0, .wall⟩)⟩,
    ⟨19800, .constant 0, some (1986, ⟨1, .on 1, 0, .wall⟩)⟩,
    ⟨20700, .constant 0, none⟩]

/-- The eras of Kolkata. -/
def kolkataEras : List Era :=
  [⟨21208, .constant 0, some (1854, ⟨6, .on 28, 0, .wall⟩)⟩,
    ⟨21200, .constant 0, some (1870, ⟨1, .on 1, 0, .wall⟩)⟩,
    ⟨19270, .constant 0, some (1906, ⟨1, .on 1, 0, .wall⟩)⟩,
    ⟨19800, .constant 0, some (1941, ⟨10, .on 1, 0, .wall⟩)⟩,
    ⟨19800, .constant 3600, some (1942, ⟨5, .on 15, 0, .wall⟩)⟩,
    ⟨19800, .constant 0, some (1942, ⟨9, .on 1, 0, .wall⟩)⟩,
    ⟨19800, .constant 3600, some (1945, ⟨10, .on 15, 0, .wall⟩)⟩,
    ⟨19800, .constant 0, none⟩]

/-- The eras of Tokyo. -/
def tokyoEras : List Era :=
  [⟨33539, .constant 0, some (1887, ⟨12, .on 31, 54000, .universal⟩)⟩,
    ⟨32400, .rules japan, none⟩]

/-- The eras of Lord Howe Island. -/
def lordHoweEras : List Era :=
  [⟨38180, .constant 0, some (1895, ⟨2, .on 1, 0, .wall⟩)⟩,
    ⟨36000, .constant 0, some (1981, ⟨3, .on 1, 0, .wall⟩)⟩,
    ⟨37800, .rules lordHowe, some (1985, ⟨7, .on 1, 0, .wall⟩)⟩,
    ⟨37800, .rules lordHowe, none⟩]

/-- The eras of Berlin. -/
def berlinEras : List Era :=
  [⟨3208, .constant 0, some (1893, ⟨4, .on 1, 0, .wall⟩)⟩,
    ⟨3600, .rules centralEurope, some (1945, ⟨5, .on 24, 7200, .wall⟩)⟩,
    ⟨3600, .rules sovietZone, some (1946, ⟨1, .on 1, 0, .wall⟩)⟩,
    ⟨3600, .rules germany, some (1980, ⟨1, .on 1, 0, .wall⟩)⟩,
    ⟨3600, .rules europeanUnion, none⟩]

/-- The eras of London. -/
def londonEras : List Era :=
  [⟨-75, .constant 0, some (1847, ⟨12, .on 1, 0, .wall⟩)⟩,
    ⟨0, .rules britain, some (1968, ⟨10, .on 27, 0, .wall⟩)⟩,
    ⟨3600, .constant 0, some (1971, ⟨10, .on 31, 7200, .universal⟩)⟩,
    ⟨0, .rules britain, some (1996, ⟨1, .on 1, 0, .wall⟩)⟩,
    ⟨0, .rules europeanUnion, none⟩]

/-- The eras of Apia. -/
def apiaEras : List Era :=
  [⟨45184, .constant 0, some (1892, ⟨7, .on 5, 0, .wall⟩)⟩,
    ⟨-41216, .constant 0, some (1911, ⟨1, .on 1, 0, .wall⟩)⟩,
    ⟨-41400, .constant 0, some (1950, ⟨1, .on 1, 0, .wall⟩)⟩,
    ⟨-39600, .rules samoa, some (2011, ⟨12, .on 29, 86400, .wall⟩)⟩,
    ⟨46800, .rules samoa, none⟩]

end XmlRecords.ZoneTable
